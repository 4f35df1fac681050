import Calculator.Session
import Calculator.Proofs.Tree
import Calculator.Proofs.Machine
import Calculator.Proofs.Evaluation
import Calculator.Proofs.Grammar
import Calculator.Proofs.Yard
import Calculator.Proofs.Compilation
import Calculator.Proofs.Reading
import Calculator.Proofs.Nest
import Calculator.Proofs.Balance
import Calculator.Proofs.Derivation
import Calculator.Proofs.Acceptance
import Calculator.Proofs.Enclosure
import Calculator.Proofs.Dangling
import Calculator.Proofs.Separation
import Calculator.Proofs.Arity
import Calculator.Proofs.Faults
import Calculator.Proofs.Adaptation
import Calculator.Proofs.Shape
import Calculator.Proofs.Agreement
import Calculator.Proofs.Draws
import Calculator.Proofs.Validity
import Calculator.Proofs.Accounting
import Calculator.Proofs.Coherence
import Calculator.Proofs.Rounding
import Calculator.Proofs.Spelling
import Calculator.Proofs.Outline
import Calculator.Proofs.Remembrance
import Calculator.Proofs.Refusal
import Calculator.Proofs.Conservation
import Calculator.Proofs.Parentheses
import Calculator.Proofs.Folding
import Calculator.Proofs.Blanks
import Calculator.Proofs.Literals
import Calculator.Proofs.Names
import Calculator.Proofs.Attempts
import Calculator.Proofs.Openings
