import Calculator.Proofs.Nest
import Mathlib.Data.List.TakeWhile

/-!
What encloses a formula. Reading and compiling behind an open parenthesis or a separator go on as at
the start: the tokens are the same, and so are the code and what waits above the parenthesis.
-/

namespace Calculator.Code

def Group.above (g : Group) (height : Nat) : Group := { g with base := g.base + height }

namespace Yard

/-- The yard on top of waiting tokens and inside of groups. -/
def above (y : Yard) (below : List Token) (outside : List Group) : Yard :=
  ⟨y.code, y.waiting ++ below, y.group.above below.length,
    y.outer.map (·.above below.length) ++ outside⟩

variable {below : List Token} {outside : List Group}

theorem drain_above (y : Yard) (base : Nat) :
    (y.above below outside).drain (base + below.length) = (y.drain base).above below outside := by
  have count : (y.waiting ++ below).length - (base + below.length) = y.waiting.length - base := by
    rw [List.length_append, Nat.add_sub_add_right]
  have le : y.waiting.length - base ≤ y.waiting.length := Nat.sub_le _ _
  simp only [drain, above, count, List.take_append_of_le_length le,
    List.drop_append_of_le_length le]

theorem close_above {y z : Yard} (bottom : ∀ t ∈ below.head?, t = .leftParen)
    (closed : y.close = .ok z) : (y.above below outside).close = .ok (z.above below outside) := by
  unfold close at closed ⊢
  cases outer : y.outer with
  | nil => rw [outer] at closed; cases closed
  | cons enclosing rest =>
    rw [outer] at closed
    have outer' : (y.above below outside).outer =
        enclosing.above below.length :: (rest.map (·.above below.length) ++ outside) := by
      simp [above, outer]
    have base : (y.above below outside).group.base = y.group.base + below.length := rfl
    have arity : (y.above below outside).group.arity = y.group.arity := rfl
    have waiting : ((y.drain y.group.base).above below outside).waiting =
        (y.drain y.group.base).waiting ++ below := rfl
    simp only [outer', base, drain_above, arity, waiting] at closed ⊢
    split at closed
    · rename_i found
      rw [found]
      cases closed
      rfl
    · rename_i left notCall found
      have bare : ∀ name n w, left ++ below ≠ .call name n :: w := by
        intro name n w same
        cases left with
        | nil =>
          rw [List.nil_append] at same
          subst same
          cases bottom _ rfl
        | cons t left =>
          cases same
          exact notCall name n left rfl
      rw [found, List.cons_append]
      split
      · rename_i called
        exact (bare _ _ _ (List.cons.inj called).2).elim
      · rename_i opened
        cases opened
        split at closed
        · rename_i many
          rw [if_pos many]
          cases closed
          rfl
        · rename_i few
          rw [if_neg few]
          split at closed
          · rename_i none
            rw [if_pos none]
            cases closed
            rfl
          · rename_i some
            rw [if_neg some]
            cases closed
            rfl
      · rename_i other
        exact (other _ rfl).elim
    · cases closed

theorem push_above {y z : Yard} {t : Token} (bottom : ∀ t ∈ below.head?, t = .leftParen)
    (pushed : y.push t = .ok z) :
    (y.above below outside).push t = .ok (z.above below outside) := by
  cases t with
  | number x => cases pushed; rfl
  | prefixOp c => cases pushed; rfl
  | call name n => cases pushed; rfl
  | tuple n => cases pushed
  | rightParen => exact close_above bottom pushed
  | leftParen =>
    cases pushed
    simp [push, above, Group.above, Group.opened, Nat.add_right_comm]
  | separator =>
    simp only [push, separate] at pushed ⊢
    split at pushed
    · rename_i value
      cases pushed
      have value' : (y.above below outside).group.hasValue = true := value
      have base : (y.above below outside).group.base = y.group.base + below.length := rfl
      rw [if_pos value', base, drain_above]
      rfl
    · cases pushed
  | binaryOp c =>
    simp only [push, binary] at pushed ⊢
    cases known : Operator.ofSymbol? c with
    | none => rw [known] at pushed; cases pushed
    | some op =>
      rw [known] at pushed
      cases pushed
      obtain ⟨taken, left⟩ := takeWhile_append_of_bottom bottom op y.waiting
      simp only [above, taken, left]
      rfl

theorem run_above {y z : Yard} {ts : List Token} (bottom : ∀ t ∈ below.head?, t = .leftParen)
    (ran : y.run ts = .ok z) : (y.above below outside).run ts = .ok (z.above below outside) := by
  induction ts generalizing y with
  | nil => cases ran; rfl
  | cons t ts ih =>
    obtain ⟨m, pushed, ran⟩ := exists_of_run_cons ran
    rw [run_cons_ok (push_above bottom pushed), ih ran]

end Yard

end Calculator.Code

namespace Calculator

namespace Token

variable {env : Environment}

theorem emitBoundary_rightParen (emitted : Emitted) :
    emitBoundary emitted ')' = rightParen :: emitted := by
  change emit emitted rightParen = _
  rw [emit_of_ne_binaryOp (by simp)]
  exact if_neg (by simp [kind, TokenKind.startsValue])

theorem emitBoundary_separator (emitted : Emitted) :
    emitBoundary emitted ',' = separator :: emitted := by
  change emit emitted separator = _
  rw [emit_of_ne_binaryOp (by simp)]
  exact if_neg (by simp [kind, TokenKind.startsValue])

theorem emitBoundary_leftParen {emitted : Emitted} (h : endsValue emitted.head? = false) :
    emitBoundary emitted '(' = leftParen :: emitted := by
  change emit emitted leftParen = _
  rw [emit_of_ne_binaryOp (by simp), h]
  rfl

theorem scan_behind {base : Emitted} (fresh : Fresh base) (text : List Char) :
    scan env base [] text = (scan env [] [] text).map (· ++ base) :=
  scan_append_base fresh [] [] text

/-- A text with a separator in it is read in two parts, each by itself. -/
theorem ofText_separated (s t : String) :
    ofText env (s ++ "," ++ t) =
      (ofText env s).bind fun first =>
        (ofText env t).map fun last => first ++ separator :: last := by
  have chars : (s ++ "," ++ t).toList = s.toList ++ ',' :: t.toList := by simp
  rw [ofText, chars, scan_append_boundary [] [] _ _ rfl, ofText, ofText]
  cases scan env [] [] s.toList with
  | error e => rfl
  | ok first =>
    have fresh : Fresh (separator :: first) := fresh_cons rfl
    simp only [Except.bind, Except.map, emitBoundary_separator, scan_behind fresh]
    cases scan env [] [] t.toList with
    | error e => rfl
    | ok last => simp

end Token

/-- Where a formula may stand: by itself, in parentheses, or as the arguments of a function. -/
inductive Enclosure
  | formula
  | parens
  | args (f : Builtin)

namespace Enclosure

def text : Enclosure → String → String
  | formula, s => s
  | parens, s => "(" ++ s ++ ")"
  | args f, s => f.name.text ++ "(" ++ s ++ ")"

def opening : Enclosure → List Token
  | formula => []
  | parens => [.leftParen]
  | args f => [.call f.name 0, .leftParen]

def closing : Enclosure → List Token
  | formula => []
  | parens | args _ => [.rightParen]

def Visible (env : Environment) : Enclosure → Prop
  | formula | parens => True
  | args f => env.lookup f.name.text = none

end Enclosure

namespace Token

variable {env : Environment}

theorem scan_unbroken {rest : List Char} (unbroken : ∀ c ∈ rest, isBoundary c = false)
    (emitted : Emitted) (run : List Char) :
    scan env emitted run rest = emitRun env emitted (run.reverse ++ rest) := by
  induction rest generalizing run with
  | nil => simp [scan]
  | cons c rest ih =>
    have inside : ¬ isBoundary c = true := by simp [unbroken c]
    rw [scan, if_neg inside, ih fun d mem => unbroken d (List.mem_cons_of_mem c mem)]
    simp

theorem scan_name {f : Builtin} (visible : env.lookup f.name.text = none) {emitted : Emitted}
    (apart : endsValue emitted.head? = false) :
    scan env emitted [] f.name.text.toList = .ok (call f.name 0 :: emitted) := by
  have unbroken : f.name.text.toList.all (fun c => !isBoundary c) = true := by
    cases f <;> decide
  have unread : Number.Literal.read? f.name.text.toList = none := by
    cases f <;> decide
  have letters : f.name.text.toList.all Text.isLetter = true := by
    cases f <;> decide +kernel
  have taken : f.name.text.toList.takeWhile Text.isLetter = f.name.text.toList :=
    List.takeWhile_eq_self_iff.mpr (List.all_eq_true.mp letters)
  have left : f.name.text.toList.dropWhile Text.isLetter = [] :=
    List.dropWhile_eq_nil_iff.mpr (List.all_eq_true.mp letters)
  have named : ofName env f.name.text = .ok (call f.name 0) := by
    simp only [ofName, visible, Builtin.ofName?_name]
  cases chars : f.name.text.toList with
  | nil => cases f <;> cases chars
  | cons c cs =>
    have whole : String.ofList (c :: cs) = f.name.text := by
      rw [← chars, String.ofList_toList]
    rw [chars] at unbroken unread taken left
    have unbroken : ∀ d ∈ c :: cs, isBoundary d = false := by simpa using unbroken
    have emits : emit emitted (call f.name 0) = call f.name 0 :: emitted := by
      rw [emit_of_ne_binaryOp (by simp), apart]
      rfl
    rw [scan_unbroken unbroken, List.reverse_nil, List.nil_append, emitRun_letters unread taken,
      whole, named, left]
    simp only [emits, emitRun_nil]

theorem scan_parens {emitted : Emitted} (h : endsValue emitted.head? = false) (s : List Char) :
    scan env (emitBoundary emitted '(') [] (s ++ [')']) =
      (scan env [] [] s).map fun inner => rightParen :: (inner ++ leftParen :: emitted) := by
  have fresh : Fresh (leftParen :: emitted) := fresh_cons rfl
  rw [emitBoundary_leftParen h, scan_append_boundary _ _ _ _ rfl, scan_behind fresh]
  cases scan env [] [] s with
  | error e => rfl
  | ok inner =>
    simp only [Except.map, Except.bind, emitBoundary_rightParen, scan, List.reverse_nil,
      emitRun_nil]

theorem ofText_enclosed {k : Enclosure} (visible : k.Visible env) (s : String) :
    ofText env (k.text s) =
      (ofText env s).map fun tokens => k.opening ++ tokens ++ k.closing := by
  cases k with
  | formula =>
    simp only [Enclosure.text, Enclosure.opening, Enclosure.closing, List.nil_append,
      List.append_nil]
    cases ofText env s <;> rfl
  | parens =>
    have chars : ("(" ++ s ++ ")").toList = [] ++ '(' :: (s.toList ++ [')']) := by simp
    rw [Enclosure.text, ofText, chars, scan_append_boundary _ _ _ _ rfl, ofText, scan,
      List.reverse_nil, emitRun_nil, Except.bind, scan_parens rfl]
    cases scan env [] [] s.toList with
    | error e => rfl
    | ok inner => simp [Except.map, Enclosure.opening, Enclosure.closing]
  | args f =>
    have chars : (f.name.text ++ "(" ++ s ++ ")").toList =
        f.name.text.toList ++ '(' :: (s.toList ++ [')']) := by simp
    rw [Enclosure.text, ofText, chars, scan_append_boundary _ _ _ _ rfl,
      scan_name visible rfl, ofText, Except.bind, scan_parens rfl]
    cases scan env [] [] s.toList with
    | error e => rfl
    | ok inner => simp [Except.map, Enclosure.opening, Enclosure.closing]

theorem ofText_enclosed_separated {k : Enclosure} (visible : k.Visible env) {s : String}
    {first : List Token} (read : ofText env s = .ok first) (t : String) :
    ofText env (k.text (s ++ "," ++ t)) =
      (ofText env t).map fun last => k.opening ++ (first ++ separator :: (last ++ k.closing)) := by
  rw [ofText_enclosed visible, ofText_separated, read]
  cases ofText env t with
  | error e => rfl
  | ok last => simp [Except.bind, Except.map]

end Token

namespace Enclosure

open Code Yard

def below (k : Enclosure) : List Token := k.opening.reverse

def outside : Enclosure → List Group
  | formula => []
  | parens | args _ => [.opened 0]

/-- What ends the code of so many arguments. -/
def closes : Enclosure → (arity : Nat) → List Token
  | formula, arity | parens, arity => packed arity
  | args f, arity => [.call f.name arity]

theorem below_bottom (k : Enclosure) : ∀ t ∈ k.below.head?, t = .leftParen := by
  cases k <;> simp [below, opening]

theorem run_opening (k : Enclosure) :
    initial.run k.opening = .ok (initial.above k.below k.outside) := by
  cases k <;> rfl

/-- The yard behind a separator, when the arguments before it have this code. -/
def resumed (k : Enclosure) (code : List Token) (complete : Nat) : Yard :=
  ⟨code.reverse, k.below, ⟨false, complete, k.below.length⟩, k.outside⟩

variable {first sent kept : List Token} {complete : Nat}

theorem run_first (k : Enclosure) {hasValue : Bool}
    (ran : initial.run first = .ok ⟨sent.reverse, kept, ⟨hasValue, complete, 0⟩, []⟩) :
    initial.run (k.opening ++ first) =
      .ok ⟨sent.reverse, kept ++ k.below, ⟨hasValue, complete, k.below.length⟩, k.outside⟩ := by
  rw [run_append_ok k.run_opening, run_above k.below_bottom ran]
  simp [above, Group.above]

theorem run_separated (k : Enclosure)
    (ran : initial.run first = .ok ⟨sent.reverse, kept, ⟨true, complete, 0⟩, []⟩)
    (rest : List Token) :
    initial.run (k.opening ++ (first ++ .separator :: rest)) =
      (k.resumed (sent ++ kept) (complete + 1)).run rest := by
  rw [← List.append_assoc, run_append_ok (k.run_first ran), run_cons_ok push_separator]
  simp [resumed]

theorem run_separated_of_not_hasValue (k : Enclosure)
    (ran : initial.run first = .ok ⟨sent.reverse, kept, ⟨false, complete, 0⟩, []⟩)
    (rest : List Token) :
    initial.run (k.opening ++ (first ++ .separator :: rest)) = .error .misplacedSeparator := by
  rw [← List.append_assoc, run_append_ok (k.run_first ran)]
  rfl

/-- Where a parenthesis ends the enclosure, what waits goes behind the code, and then what ends it.
-/
theorem exists_push_closing {k : Enclosure} (enclosed : k.closing = [.rightParen])
    {code kept : List Token} {hasValue : Bool} {complete : Nat} :
    ∃ value, (0 < complete + hasValue.toNat → value = true) ∧
      push ⟨code, kept ++ k.below, ⟨hasValue, complete, k.below.length⟩, k.outside⟩ .rightParen =
        .ok ⟨(k.closes (complete + hasValue.toNat)).reverse ++ (kept.reverse ++ code), [],
          ⟨value, 0, 0⟩, []⟩ := by
  cases k with
  | formula => cases enclosed
  | parens =>
    have closed : push ⟨code, kept ++ [.leftParen], ⟨hasValue, complete, 1⟩, [.opened 0]⟩
        .rightParen = .ok ⟨packed (complete + hasValue.toNat) ++ (kept.reverse ++ code), [],
          ⟨false || decide (0 < complete + hasValue.toNat), 0, 0⟩, []⟩ :=
      push_rightParen_bare (by simp)
    rw [closes, reverse_packed]
    exact ⟨_, fun arity => by simp [arity], closed⟩
  | args f => exact ⟨true, fun _ => rfl, push_rightParen_call f.name 0⟩

theorem push_closing {k : Enclosure} (enclosed : k.closing = [.rightParen]) {code kept : List Token}
    {hasValue : Bool} {complete : Nat} (arity : 0 < complete + hasValue.toNat) :
    push ⟨code, kept ++ k.below, ⟨hasValue, complete, k.below.length⟩, k.outside⟩ .rightParen =
      .ok ⟨(k.closes (complete + hasValue.toNat)).reverse ++ (kept.reverse ++ code), [],
        ⟨true, 0, 0⟩, []⟩ := by
  obtain ⟨value, some, closed⟩ := exists_push_closing enclosed
  rw [closed, some arity]

theorem exists_finish (k : Enclosure) {code kept : List Token} {hasValue : Bool} {complete : Nat}
    (operators : ∀ t ∈ kept, isParen t = false)
    (some : code ++ kept ++ k.closes (complete + hasValue.toNat) ≠ []) :
    ∃ y, run ⟨code.reverse, kept ++ k.below, ⟨hasValue, complete, k.below.length⟩, k.outside⟩
        k.closing = .ok y ∧
      y.finish = .ok (code ++ kept ++ k.closes (complete + hasValue.toNat)) := by
  have ended (enclosed : k.closing = [.rightParen]) :
      ∃ y, run ⟨code.reverse, kept ++ k.below, ⟨hasValue, complete, k.below.length⟩, k.outside⟩
          k.closing = .ok y ∧
        y.finish = .ok (code ++ kept ++ k.closes (complete + hasValue.toNat)) := by
    obtain ⟨value, _, closed⟩ := exists_push_closing enclosed
    have alone : packed (0 + value.toNat) = [] := by cases value <;> rfl
    rw [enclosed, run_cons_ok closed]
    refine ⟨_, rfl, finish_eq_ok_iff.mpr ⟨rfl, rfl, ?_, some⟩⟩
    rw [arity_mk, alone]
    simp
  cases k with
  | formula =>
    refine ⟨_, rfl, finish_eq_ok_iff.mpr ⟨rfl, ?_, ?_, some⟩⟩
    · simpa [below, opening] using operators
    · simp [below, opening, closes, arity_mk]
  | parens => exact ended rfl
  | args f => exact ended rfl

end Enclosure

end Calculator
