import Calculator.Proofs.Conservation
import Calculator.Proofs.Refusal

/-!
The stacks of compiling. A group stands right above its own parenthesis, and until it closes it keeps
all that waited when it was opened: what is sent on belongs to it or to the groups inside. So a group
that closes finds its parenthesis, and where no group is open there is none.
-/

namespace Calculator

/-- What was read when each group that is still open was opened, its parenthesis included; the
innermost group comes first and what was read is last first. -/
def Token.openings : (read : List Token) → List (List Token)
  | [] => [[]]
  | .leftParen :: read => (.leftParen :: read) :: openings read
  | .rightParen :: read => (openings read).tail
  | _ :: read => openings read

namespace Token

variable {read opening : List Token}

theorem suffix_of_mem_openings (mem : opening ∈ openings read) : opening <:+ read := by
  fun_induction openings read with
  | case1 =>
    cases List.mem_singleton.mp mem
    exact List.suffix_rfl
  | case2 read ih =>
    rcases List.mem_cons.mp mem with rfl | mem
    · exact List.suffix_rfl
    · exact (ih mem).trans (List.suffix_cons _ read)
  | case3 read ih => exact (ih (List.mem_of_mem_tail mem)).trans (List.suffix_cons _ read)
  | case4 t read _ _ ih => exact (ih mem).trans (List.suffix_cons t read)

/-- A group is opened behind the groups around it. -/
theorem pairwise_openings (read : List Token) :
    (openings read).Pairwise fun inner outer => outer <:+ inner := by
  fun_induction openings read with
  | case1 => exact List.pairwise_singleton _ _
  | case2 read ih =>
    refine List.pairwise_cons.mpr ⟨fun opening mem => ?_, ih⟩
    exact (suffix_of_mem_openings mem).trans (List.suffix_cons _ read)
  | case3 read ih => exact ih.tail
  | case4 t read _ _ ih => exact ih

end Token

namespace Code

/-- What an open group keeps of the yard in which it was opened: all that waited then, the code, and
more code than that once one of its arguments has a value. -/
structure Group.Keeps (g : Group) (opened y : Yard) : Prop where
  group : opened.group = .opened g.base
  height : opened.waiting.length = g.base
  waiting : opened.waiting <:+ y.waiting
  code : opened.code <:+ y.code
  emitted : 0 < g.complete ∨ g.hasValue = true → opened.code.length < y.code.length

namespace Group.Keeps

variable {g g' : Group} {opened y z : Yard} {kept : List Token}

/-- What waits below the base is all that counts. -/
theorem mono (keeps : g.Keeps opened y) (same : g'.base = g.base) (height : g.base ≤ kept.length)
    (before : kept <:+ y.waiting) (after : kept <:+ z.waiting) (code : y.code <:+ z.code)
    (value : 0 < g'.complete ∨ g'.hasValue = true →
      (0 < g.complete ∨ g.hasValue = true) ∨ opened.code.length < z.code.length) :
    g'.Keeps opened z where
  group := by rw [same, keeps.group]
  height := by rw [same, keeps.height]
  waiting := by
    have short : opened.waiting.length ≤ kept.length := by rw [keeps.height]; exact height
    exact (List.suffix_of_suffix_length_le keeps.waiting before short).trans after
  code := keeps.code.trans code
  emitted some := by
    rcases value some with some | more
    · exact Nat.lt_of_lt_of_le (keeps.emitted some) code.length_le
    · exact more

theorem drain (keeps : g.Keeps opened y) : (y.drain g.base).waiting = opened.waiting := by
  obtain ⟨above, whole⟩ := keeps.waiting
  have count : (above ++ opened.waiting).length - g.base = above.length := by
    rw [List.length_append, keeps.height]
    omega
  simp only [Yard.drain, ← whole, count, List.drop_left]

end Group.Keeps

namespace Yard

variable {y z : Yard} {read : List Token} {t : Token}

theorem code_suffix_of_push (pushed : y.push t = .ok z) : y.code <:+ z.code := by
  obtain ⟨sent, _, _, emitted, _, _, _, code, _⟩ := exists_of_push pushed
  rw [code, ← List.append_assoc]
  exact List.suffix_append _ _

theorem code_suffix_of_run {tokens : List Token} (ran : y.run tokens = .ok z) :
    y.code <:+ z.code := by
  induction tokens generalizing y with
  | nil =>
    cases ran
    exact List.suffix_rfl
  | cons t tokens ih =>
    obtain ⟨m, pushed, ran⟩ := exists_of_run_cons ran
    exact (code_suffix_of_push pushed).trans (ih ran)

theorem run_concat {m : Yard} {tokens : List Token} (ran : y.run tokens = .ok m)
    (pushed : m.push t = .ok z) : y.run (tokens ++ [t]) = .ok z := by
  rw [run_append_ok ran, run_cons_ok pushed]
  rfl

/-- The group was opened behind these tokens, last first, and keeps the yard it was opened in. -/
def OpenedBehind (y : Yard) (g : Group) (opening : List Token) : Prop :=
  ∃ opened, initial.run opening.reverse = .ok opened ∧ g.Keeps opened y

theorem length_bound_pos {left : List Token} (waits : 0 < Token.callsOnTop left) (arity : Nat) :
    0 < (bound left arity).length := by
  cases left with
  | nil => cases waits
  | cons t left =>
    cases t with
    | call => exact Nat.succ_pos _
    | _ => cases waits

/-- The group around one that closes may get its value from new code or from that of the other. -/
theorem OpenedBehind.around {g enclosing enclosing' : Group} {below opening behind : List Token}
    (inner : y.OpenedBehind g opening) (nested : behind <:+ opening)
    (opened : y.OpenedBehind enclosing behind) (base : enclosing.base = below.length)
    (before : below <:+ y.waiting) (after : below <:+ z.waiting) (code : y.code <:+ z.code)
    (same : enclosing'.base = enclosing.base)
    (value : 0 < enclosing'.complete ∨ enclosing'.hasValue = true →
      (0 < enclosing.complete ∨ enclosing.hasValue = true) ∨
        (0 < g.complete ∨ g.hasValue = true) ∨ y.code.length < z.code.length) :
    z.OpenedBehind enclosing' behind := by
  obtain ⟨own, ran, keeps⟩ := opened
  obtain ⟨first, ran', others⟩ := inner
  obtain ⟨since, rfl⟩ := nested
  rw [List.reverse_append, run_append_ok ran] at ran'
  have older := (code_suffix_of_run ran').length_le
  refine ⟨own, ran, keeps.mono same (Nat.le_of_eq base) before after code fun some => ?_⟩
  rcases value some with some | some | more
  · exact .inl some
  · have := others.emitted some
    have := code.length_le
    exact .inr (by omega)
  · exact .inr (Nat.lt_of_le_of_lt keeps.code.length_le more)

end Yard

namespace Encloses

open Yard

variable {below around : List Token} {outer : List Group} {g : Group}

theorem base_lt (encloses : Encloses below outer around) : ∀ g ∈ outer, g.base < below.length := by
  induction encloses with
  | formula => simp
  | @group g above below _ _ outer _ _ base ih =>
    simp only [List.length_cons, List.length_append, List.forall_mem_cons]
    refine ⟨by omega, fun h mem => ?_⟩
    have := ih h mem
    omega

/-- What changes above the innermost group's base is nothing to the groups around it. -/
theorem opened {y z : Yard} {openings : List (List Token)} (encloses : Encloses below outer around)
    (before : below <:+ y.waiting) (after : below <:+ z.waiting) (code : y.code <:+ z.code)
    (opened : List.Forall₂ y.OpenedBehind outer openings) :
    List.Forall₂ z.OpenedBehind outer openings := by
  have both := (List.forall₂_and_left _ _).mpr ⟨encloses.base_lt, opened⟩
  refine both.imp fun g opening ⟨height, m, ran, keeps⟩ => ⟨m, ran, ?_⟩
  exact keeps.mono rfl (Nat.le_of_lt height) before after code Or.inl

/-- The groups that are open stay so, and the innermost one may get its value from new code. -/
theorem opened_within {y z : Yard} {g' : Group} {openings : List (List Token)}
    (encloses : Encloses below outer around) (base : g.base = below.length)
    (before : below <:+ y.waiting) (after : below <:+ z.waiting) (code : y.code <:+ z.code)
    (same : g'.base = g.base)
    (value : 0 < g'.complete ∨ g'.hasValue = true →
      (0 < g.complete ∨ g.hasValue = true) ∨ y.code.length < z.code.length)
    (opened : List.Forall₂ y.OpenedBehind (g :: outer) openings) :
    List.Forall₂ z.OpenedBehind (g' :: outer) openings := by
  cases opened with
  | cons inner around =>
    obtain ⟨m, ran, keeps⟩ := inner
    refine .cons ⟨m, ran, ?_⟩ (encloses.opened before after code around)
    refine keeps.mono same (Nat.le_of_eq base) before after code fun some => ?_
    exact (value some).imp id (Nat.lt_of_le_of_lt keeps.code.length_le)

theorem opened_close {code above left : List Token} {enclosing : Group}
    {openings : List (List Token)} (encloses : Encloses below outer around)
    (base : enclosing.base = below.length)
    (nested : openings.Pairwise fun inner outer => outer <:+ inner)
    (opened : List.Forall₂
      (OpenedBehind ⟨code, above ++ .leftParen :: (left ++ below), g, enclosing :: outer⟩)
      (g :: enclosing :: outer) openings) :
    let hasValue := enclosing.hasValue || decide (0 < Token.callsOnTop left) || decide (0 < g.arity)
    let z : Yard := ⟨bound left g.arity ++ (above.reverse ++ code), Token.released left ++ below,
      { enclosing with hasValue }, outer⟩
    List.Forall₂ z.OpenedBehind (z.group :: z.outer) openings.tail := by
  intro hasValue z
  rcases opened with _ | ⟨inner, _ | ⟨own, opened⟩⟩
  have before : below <:+ above ++ .leftParen :: (left ++ below) :=
    ((List.suffix_append left below).trans (List.suffix_cons _ _)).trans (List.suffix_append _ _)
  have after : below <:+ z.waiting := List.suffix_append _ _
  have grown : code <:+ z.code := (List.suffix_append _ _).trans (List.suffix_append _ _)
  have nested := List.rel_of_pairwise_cons nested List.mem_cons_self
  refine .cons ?_ (encloses.opened before after grown opened)
  refine inner.around nested own base before after grown rfl fun some => ?_
  simp only [z, hasValue, Bool.or_eq_true, decide_eq_true_eq, Group.arity_pos_iff] at some
  rcases some with some | (some | waits) | some
  · exact .inl (.inl some)
  · exact .inl (.inr some)
  · have := length_bound_pos waits g.arity
    simp only [z, List.length_append, List.length_reverse]
    exact .inr (.inr (by omega))
  · exact .inr (.inl some)

end Encloses

namespace Yard

variable {y z : Yard} {read : List Token} {t : Token}

/-- A push keeps what the open groups keep, and opens and closes them as its token says. -/
theorem opened_push (ran : initial.run read.reverse = .ok y) (pushed : y.push t = .ok z)
    (opened : List.Forall₂ y.OpenedBehind (y.group :: y.outer) (Token.openings read)) :
    List.Forall₂ z.OpenedBehind (z.group :: z.outer) (Token.openings (t :: read)) := by
  have remembers := remembers_of_run ran
  rw [List.reverse_reverse] at remembers
  obtain @⟨code, above, below, inside, around, g, outer, encloses, describes, base⟩ := remembers
  have before : below <:+ above ++ below := List.suffix_append _ _
  have grown := code_suffix_of_push pushed
  cases t with
  | number x =>
    cases pushed
    exact encloses.opened_within base before before grown rfl
      (fun _ => .inr (Nat.lt_succ_self _)) opened
  | prefixOp c =>
    cases pushed
    exact encloses.opened_within base before (before.trans (List.suffix_cons _ _)) grown rfl .inl
      opened
  | call f claimed =>
    cases pushed
    exact encloses.opened_within base before (before.trans (List.suffix_cons _ _)) grown rfl .inl
      opened
  | binaryOp c =>
    obtain ⟨taken, left, rfl, rfl⟩ := exists_of_push_binaryOp encloses.bottom pushed
    exact encloses.opened_within base before
      ((List.suffix_append left below).trans (List.suffix_cons _ _)) grown rfl .inl opened
  | separator =>
    obtain ⟨value, rfl⟩ := of_push_separator base pushed
    exact encloses.opened_within base before List.suffix_rfl grown rfl (fun _ => .inl (.inr value))
      opened
  | leftParen =>
    have whole : initial.run (.leftParen :: (inside ++ around)).reverse = .ok z := by
      rw [List.reverse_cons]
      exact run_concat ran pushed
    cases pushed
    refine .cons ⟨_, whole, rfl, rfl, List.suffix_rfl, List.suffix_rfl, nofun⟩ ?_
    exact encloses.opened_within base before (before.trans (List.suffix_cons _ _)) grown rfl .inl
      opened
  | rightParen =>
    cases encloses with
    | formula => cases pushed
    | @group enclosing left below front around outer encloses outside height =>
      rw [push_rightParen encloses.bottom base] at pushed
      cases pushed
      exact encloses.opened_close height (Token.pairwise_openings _) opened
  | tuple n => cases pushed

/-- Each open group keeps the yard in which it was opened. -/
theorem opened_of_run (ran : initial.run read.reverse = .ok y) :
    List.Forall₂ y.OpenedBehind (y.group :: y.outer) (Token.openings read) := by
  induction read generalizing y with
  | nil =>
    cases ran
    have keeps : (Group.opened 0).Keeps initial initial :=
      ⟨rfl, rfl, List.suffix_rfl, List.suffix_rfl, by simp [Group.opened]⟩
    exact .cons ⟨initial, rfl, keeps⟩ .nil
  | cons t read ih =>
    rw [List.reverse_cons] at ran
    obtain ⟨m, ran, last⟩ := exists_of_run_append ran
    obtain ⟨z, pushed, done⟩ := exists_of_run_cons last
    cases done
    exact opened_push ran pushed (ih ran)

/-- The open groups, that of the whole formula first. -/
def groups (y : Yard) : List Group := (y.group :: y.outer).reverse

/-- What waits, the token that has waited longest first. -/
def stack (y : Yard) : List Token := y.waiting.reverse

/-- How groups and stack stand to each other. -/
structure Standing (y : Yard) : Prop where
  bottom : y.groups.head?.map Group.base = some 0
  ascending : (y.groups.map Group.base).Pairwise (· < ·)
  height : ∀ g ∈ y.groups, g.base ≤ y.stack.length
  count : y.stack.count .leftParen = y.groups.length - 1
  parens (i : Nat) : y.stack[i]? = some .leftParen ↔ ∃ g ∈ y.groups.tail, g.base = i + 1
  waits : ∀ t ∈ y.stack, t = .leftParen ∨ t.applies = true
  plain : ∀ t ∈ y.code, t ≠ .leftParen ∧ t ≠ .rightParen

end Yard

namespace Encloses

open Yard

variable {below around above : List Token} {outer : List Group} {g : Group}

theorem pairwise_base (encloses : Encloses below outer around) :
    outer.Pairwise fun inner outer => outer.base < inner.base := by
  induction encloses with
  | formula => exact .nil
  | group encloses _ base ih => exact List.pairwise_cons.mpr ⟨base ▸ encloses.base_lt, ih⟩

theorem base_getLast? (encloses : Encloses below outer around) (base : g.base = below.length) :
    (g :: outer).getLast?.map Group.base = some 0 := by
  induction encloses generalizing g with
  | formula => simp [base]
  | group _ _ height ih =>
    rw [List.getLast?_cons_cons]
    exact ih height

theorem waits (encloses : Encloses below outer around) :
    ∀ t ∈ below, t = .leftParen ∨ t.applies = true := by
  induction encloses with
  | formula => simp
  | group _ describes _ ih =>
    simp only [List.forall_mem_cons, List.forall_mem_append, true_or, true_and]
    exact ⟨fun t mem => .inr (describes.applied t mem), ih⟩

theorem count_applied (applied : ∀ t ∈ above, t.applies = true) :
    above.count .leftParen = 0 :=
  List.count_eq_zero.mpr fun mem => by cases applied _ mem

theorem count (encloses : Encloses below outer around) :
    below.count .leftParen = outer.length := by
  induction encloses with
  | formula => rfl
  | group _ describes _ ih =>
    rw [List.count_cons_self, List.count_append, count_applied describes.applied, ih,
      List.length_cons, Nat.zero_add]

theorem paren_applied (applied : ∀ t ∈ above, t.applies = true) (i : Nat) :
    (above ++ below).reverse[i]? = some .leftParen ↔ below.reverse[i]? = some .leftParen := by
  rw [List.reverse_append, List.getElem?_append]
  split
  · rfl
  · rename_i beyond
    rw [List.getElem?_eq_none (Nat.le_of_not_lt beyond)]
    refine iff_of_false (fun found => ?_) nofun
    cases applied _ (List.mem_reverse.mp (List.mem_of_getElem? found))

theorem parens (encloses : Encloses below outer around) (base : g.base = below.length) (i : Nat) :
    below.reverse[i]? = some .leftParen ↔ ∃ h ∈ (g :: outer).dropLast, h.base = i + 1 := by
  induction encloses generalizing g with
  | formula => simp
  | @group enclosing above below inside around outer encloses describes height ih =>
    have low : ∀ h ∈ (enclosing :: outer).dropLast, h.base ≤ below.length := by
      intro h mem
      rcases List.mem_cons.mp ((List.dropLast_sublist _).subset mem) with rfl | mem
      · exact Nat.le_of_eq height
      · exact Nat.le_of_lt (encloses.base_lt h mem)
    have size : (above ++ below).reverse.length = above.length + below.length := by
      rw [List.length_reverse, List.length_append]
    have own : g.base = above.length + below.length + 1 := by simpa using base
    rw [List.reverse_cons, List.dropLast_cons_cons, List.exists_mem_cons_iff, own]
    rcases Nat.lt_trichotomy i (above.length + below.length) with inside | rfl | beyond
    · rw [List.getElem?_append_left (size ▸ inside), paren_applied describes.applied, ih height]
      exact (or_iff_right (by omega)).symm
    · rw [List.getElem?_append_right (by omega), size, Nat.sub_self]
      exact iff_of_true rfl (.inl rfl)
    · rw [List.getElem?_eq_none (by simp; omega)]
      refine iff_of_false nofun ?_
      rintro (same | ⟨h, mem, same⟩)
      · omega
      · have := low h mem
        omega

end Encloses

namespace Yard

variable {y : Yard} {read : List Token}

theorem Remembers.standing (remembers : y.Remembers read)
    (plain : ∀ t ∈ y.code, t.delimits = false) : y.Standing := by
  obtain @⟨code, above, below, inside, around, g, outer, encloses, describes, base⟩ := remembers
  constructor
  · rw [groups, List.head?_reverse]
    exact encloses.base_getLast? base
  · rw [groups, List.map_reverse, List.pairwise_reverse, List.pairwise_map]
    exact List.pairwise_cons.mpr ⟨base ▸ encloses.base_lt, encloses.pairwise_base⟩
  · intro h mem
    rw [stack, List.length_reverse, List.length_append]
    rcases List.mem_cons.mp (List.mem_reverse.mp mem) with rfl | mem
    · omega
    · have := encloses.base_lt h mem
      omega
  · rw [stack, List.count_reverse, List.count_append, Encloses.count_applied describes.applied,
      encloses.count, groups, List.length_reverse, List.length_cons, Nat.zero_add, Nat.add_sub_cancel]
  · intro i
    rw [stack, Encloses.paren_applied describes.applied, encloses.parens base, groups,
      List.tail_reverse]
    simp only [List.mem_reverse]
  · intro t mem
    rcases List.mem_append.mp (List.mem_reverse.mp mem) with mem | mem
    · exact .inr (describes.applied t mem)
    · exact encloses.waits t mem
  · intro t mem
    have := plain t mem
    cases t with
    | leftParen | rightParen => cases this
    | _ => simp

/-- How the innermost group of a yard can end. All that waits above its base is sent on and nothing
of what waited when it was opened; a group that closes then has its own parenthesis on top and takes
the function in front of it, and a formula that ends has no parenthesis left. -/
structure Ends (opened y : Yard) : Prop where
  drain : (y.drain y.group.base).waiting = opened.waiting
  separate (z : Yard) : y.separate = .ok z → z.waiting = opened.waiting
  close : y.outer ≠ [] → ∃ kept z, opened.waiting = .leftParen :: kept ∧ y.close = .ok z ∧
    z.waiting = Token.released kept ∧
    z.code = bound kept y.group.arity ++ (y.drain y.group.base).code
  finish : y.outer = [] →
    y.waiting.any isParen = false ∧ y.finish ≠ .error .unbalancedParenthesis

/-- A group takes at most the function in front of it, which is in the group around. -/
theorem released_append (left : List Token) {below : List Token}
    (bottom : ∀ t ∈ below.head?, t = .leftParen) (arity : Nat) :
    Token.released (left ++ below) = Token.released left ++ below ∧
      bound (left ++ below) arity = bound left arity := by
  cases left with
  | nil =>
    cases below with
    | nil => exact ⟨rfl, rfl⟩
    | cons t below =>
      cases bottom t rfl
      exact ⟨rfl, rfl⟩
  | cons t left => cases t <;> exact ⟨rfl, rfl⟩

theorem Remembers.ends {opened : Yard} (remembers : y.Remembers read)
    (keeps : y.group.Keeps opened y) : Ends opened y := by
  have drain := keeps.drain
  refine ⟨drain, fun z separated => ?_, fun nested => ?_, fun closed => ?_⟩
  · simp only [Yard.separate] at separated
    split at separated
    · cases separated
      exact drain
    · cases separated
  · obtain @⟨code, above, below, inside, around, g, outer, encloses, describes, base⟩ := remembers
    cases encloses with
    | formula => exact absurd rfl nested
    | @group enclosing left below front around outer encloses outside height =>
      simp only [base, drain_append] at drain ⊢
      obtain ⟨released, bound⟩ := released_append left encloses.bottom g.arity
      exact ⟨left ++ below, _, drain.symm, push_rightParen encloses.bottom base, released.symm,
        congrArg (· ++ (above.reverse ++ code)) bound.symm⟩
  · refine ⟨remembers.any_isParen closed, fun refused => ?_⟩
    obtain ⟨fault, _⟩ := remembers.finish_error (remembers.outer_eq_nil_iff.mp closed) refused
    cases fault

/-- Behind any tokens that are taken the groups ascend on the stack from the bottom, each right above
its own parenthesis, and no parenthesis is anywhere else. Each open group keeps the yard it was
opened in, with new code since if it has a value. So the innermost one finds its own parenthesis when
it closes, and what ends it takes nothing that waits in the groups around but its own function. -/
theorem standing_of_run {tokens : List Token} (ran : initial.run tokens = .ok y) :
    y.Standing ∧
      List.Forall₂ y.OpenedBehind (y.group :: y.outer) (Token.openings tokens.reverse) ∧
      ∃ opened, initial.run ((Token.openings tokens.reverse).headD []).reverse = .ok opened ∧
        Ends opened y := by
  obtain ⟨remembers, emitted⟩ := emitted_of_run ran
  have openings : List.Forall₂ y.OpenedBehind (y.group :: y.outer)
      (Token.openings tokens.reverse) := opened_of_run (by rwa [List.reverse_reverse])
  refine ⟨remembers.standing emitted.delimits, openings, ?_⟩
  generalize Token.openings tokens.reverse = openings at *
  cases openings with
  | cons inner _ =>
    obtain ⟨opened, ran, keeps⟩ := inner
    exact ⟨opened, ran, remembers.ends keeps⟩

section Halfway

/-- The tokens of `1 + sin(2, -(3 *`. -/
def halfway : List Token :=
  [.number 1, .binaryOp '+', .call Builtin.sin.name 0, .leftParen, .number 2, .separator,
    .prefixOp '-', .leftParen, .number 3, .binaryOp '*']

/-- Two groups are open, and the inner one was opened behind the sign. -/
theorem standing_of_run_halfway :
    ∃ y opened, initial.run halfway = .ok y ∧ initial.run (halfway.take 8) = .ok opened ∧
      y.groups.map Group.base = [0, 3, 5] ∧
      y.stack = [.binaryOp '+', .call Builtin.sin.name 0, .leftParen, .prefixOp '-', .leftParen,
        .binaryOp '*'] ∧ y.Standing ∧ Ends opened y := by
  have ran : initial.run halfway = .ok
      ⟨[.number 3, .number 2, .number 1],
        [.binaryOp '*', .leftParen, .prefixOp '-', .leftParen, .call Builtin.sin.name 0,
          .binaryOp '+'],
        ⟨true, 0, 5⟩, [⟨false, 1, 3⟩, ⟨true, 0, 0⟩]⟩ := rfl
  obtain ⟨standing, _, opened, first, ends⟩ := standing_of_run ran
  exact ⟨_, opened, ran, first, rfl, rfl, standing, ends⟩

end Halfway

end Yard

end Code

end Calculator
