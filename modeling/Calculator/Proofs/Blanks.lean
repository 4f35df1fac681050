import Calculator.Proofs.Adaptation
import Calculator.Proofs.Lexemes

/-!
Blanks. Only between two characters of a run does a blank separate anything. Everywhere else blanks
can be put in and taken out, and a block of blanks can be replaced by any other: the lexemes are the
same, and so is all that is made of them.
-/

namespace Calculator

namespace Lexeme

open Token (isBoundary)

/-- The place between two parts of a text is not inside a run. -/
def Apart (p q : List Char) : Prop :=
  p = [] ∨ q = [] ∨ (∃ c ∈ p.getLast?, isBoundary c = true) ∨ ∃ c ∈ q.head?, isBoundary c = true

theorem ofChars_append {p q : List Char} (apart : Apart p q) :
    ofChars (p ++ q) = ofChars p ++ ofChars q := by
  rcases apart with rfl | rfl | ⟨c, last, ends⟩ | ⟨c, first, ends⟩
  · rfl
  · simp [ofChars, pieces]
  · obtain ⟨front, rfl⟩ := List.getLast?_eq_some_iff.mp last
    have whole := ofChars_append_boundary front q ends
    have part := ofChars_append_boundary front [] ends
    have nothing : ofChars [] = [] := rfl
    rw [nothing, List.append_nil] at part
    rw [part, List.append_assoc, List.singleton_append, whole]
  · obtain ⟨rest, rfl⟩ := List.head?_eq_some_iff.mp first
    have part := ofChars_append_boundary [] rest ends
    have nothing : ofChars [] = [] := rfl
    rw [nothing, List.nil_append, List.nil_append] at part
    rw [part, ofChars_append_boundary p rest ends, List.append_assoc]

theorem isBoundary_of_isBlank {c : Char} (blank : Text.isBlank c = true) : isBoundary c = true := by
  simp [isBoundary, blank]

theorem ofChars_blanks {w : List Char} (blank : ∀ c ∈ w, Text.isBlank c = true) :
    ofChars w = [] := by
  induction w with
  | nil => rfl
  | cons c w ih =>
    obtain ⟨first, others⟩ := List.forall_mem_cons.mp blank
    have parts := ofChars_append_boundary [] w (isBoundary_of_isBlank first)
    rw [if_pos first, ih others] at parts
    exact parts

/-- Blanks between two parts of a text leave both as they are. -/
theorem ofChars_append_blanks {p w q : List Char} (blank : ∀ c ∈ w, Text.isBlank c = true)
    (apart : w ≠ [] ∨ Apart p q) : ofChars (p ++ w ++ q) = ofChars p ++ ofChars q := by
  cases w with
  | nil =>
    rw [List.append_nil]
    exact ofChars_append (apart.resolve_left (absurd rfl))
  | cons c w =>
    have first := isBoundary_of_isBlank (blank c List.mem_cons_self)
    have final : ∃ d ∈ (c :: w).getLast?, isBoundary d = true := by
      refine ⟨(c :: w).getLast (List.cons_ne_nil c w), List.getLast?_eq_some_getLast _, ?_⟩
      exact isBoundary_of_isBlank (blank _ (List.getLast_mem _))
    have before : Apart p (c :: w ++ q) := .inr (.inr (.inr ⟨c, rfl, first⟩))
    have behind : Apart (c :: w) q := .inr (.inr (.inl final))
    rw [List.append_assoc, ofChars_append before, ofChars_append behind, ofChars_blanks blank,
      List.nil_append]

/-- Only blanks are put in or taken out, and not between two characters of a run unless others are
there before and after. -/
inductive Respaced : String → String → Prop
  | insert {p w q : String} (blank : ∀ c ∈ w.toList, Text.isBlank c = true)
      (apart : Apart p.toList q.toList) : Respaced (p ++ q) (p ++ w ++ q)
  | delete {p w q : String} (blank : ∀ c ∈ w.toList, Text.isBlank c = true)
      (apart : Apart p.toList q.toList) : Respaced (p ++ w ++ q) (p ++ q)
  | replace {p w w' q : String} (some : w ≠ "") (some' : w' ≠ "")
      (blank : ∀ c ∈ w.toList, Text.isBlank c = true)
      (blank' : ∀ c ∈ w'.toList, Text.isBlank c = true) : Respaced (p ++ w ++ q) (p ++ w' ++ q)

theorem ofText_eq_of_respaced {s t : String} (respaced : Respaced s t) : ofText s = ofText t := by
  cases respaced with
  | insert blank apart =>
    simp only [ofText, String.toList_append]
    rw [ofChars_append_blanks blank (.inr apart), ofChars_append apart]
  | delete blank apart =>
    simp only [ofText, String.toList_append]
    rw [ofChars_append_blanks blank (.inr apart), ofChars_append apart]
  | replace some some' blank blank' =>
    simp only [ofText, String.toList_append]
    rw [ofChars_append_blanks blank (.inl (by simpa using some)),
      ofChars_append_blanks blank' (.inl (by simpa using some'))]

end Lexeme

/-- Into a number a formula converts by its code alone. -/
theorem Formula.convert_source (f : Formula) (source : String) (env : Environment) {target : Target}
    (numeric : target ≠ .text) :
    Formula.convert { f with source } env target = f.convert env target := by
  simp only [convert, if_neg numeric]
  rfl

namespace Environment

open Lexeme (Respaced)

theorem adapt_cause (env : Environment) (source : String) {target : Target}
    (numeric : target ≠ .text) :
    ((env.adapt target source).1.mapError AdaptError.cause, (env.adapt target source).2) =
      match Formula.compile env source with
      | .error e => (.error e, env)
      | .ok f => f.convert env target := by
  cases compiled : Formula.compile env source with
  | error e => rw [adapt_of_compile_error numeric compiled]; rfl
  | ok f =>
    simp only [adapt_of_compile numeric compiled, Formula.adapt]
    cases f.convert env target with
    | mk result after => cases result <;> rfl

section Respaced

variable {s t : String} (respaced : Respaced s t) (env : Environment)

include respaced

theorem ofText_respaced : Token.ofText env s = Token.ofText env t := by
  rw [Token.ofText_eq, Token.ofText_eq, Lexeme.ofText_eq_of_respaced respaced]

theorem compile_respaced :
    Formula.compile env t = (Formula.compile env s).map fun f => { f with source := t } := by
  simp only [Formula.compile, ofText_respaced respaced env]
  cases Token.ofText env t with
  | error e => rfl
  | ok tokens =>
    simp only [bind, Except.bind]
    cases Code.ofTokens tokens with
    | error e => rfl
    | ok code => rfl

theorem adapt_respaced {target : Target} (numeric : target ≠ .text) :
    ((env.adapt target s).1.mapError AdaptError.cause, (env.adapt target s).2) =
      ((env.adapt target t).1.mapError AdaptError.cause, (env.adapt target t).2) := by
  rw [adapt_cause env s numeric, adapt_cause env t numeric, compile_respaced respaced]
  cases Formula.compile env s with
  | error e => rfl
  | ok f => exact (f.convert_source t env numeric).symm

/-- Blanks matter between two characters of a run only. With blanks put in, taken out or replaced
elsewhere a text has the same tokens or the same error, the same code, the same result and random
numbers, and in every numeric type the same value or cause of failure. -/
theorem reads_respaced :
    Token.ofText env s = Token.ofText env t ∧
      (Formula.compile env s).map (fun f => (f.tokens, f.code)) =
        (Formula.compile env t).map (fun f => (f.tokens, f.code)) ∧
      env.interpret s = env.interpret t ∧
      ∀ target, target ≠ .text →
        (env.adapt target s).1.mapError AdaptError.cause =
            (env.adapt target t).1.mapError AdaptError.cause ∧
          (env.adapt target s).2 = (env.adapt target t).2 := by
  have tokens := ofText_respaced respaced env
  refine ⟨tokens, ?_, ?_, ?_⟩
  · rw [compile_respaced respaced]
    cases Formula.compile env s with
    | error e => rfl
    | ok f => rfl
  · rw [interpret, interpret, tokens]
  · intro target numeric
    exact Prod.ext_iff.mp (adapt_respaced respaced env numeric)

end Respaced

section Example

/-- A blank before a parenthesis, where an operator would end the run as well. -/
theorem reads_respaced_sin :
    Respaced "sin(1)" "sin \t(1)" ∧ initial.interpret "sin(1)" = initial.interpret "sin \t(1)" := by
  have blanks : " \t".toList.all Text.isBlank = true := by decide
  have blank := List.all_eq_true.mp blanks
  have respaced : Respaced ("sin" ++ "(1)") ("sin" ++ " \t" ++ "(1)") :=
    .insert blank (.inr (.inr (.inr ⟨'(', by decide, by decide⟩)))
  exact ⟨respaced, (reads_respaced respaced initial).2.2.1⟩

end Example

end Environment

end Calculator
