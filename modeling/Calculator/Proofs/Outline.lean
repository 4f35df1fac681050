import Calculator.Proofs.Nest

/-!
Tokens read backwards. How many parentheses are open behind them, what the arguments of the
innermost group are, which of these have a value and whether a function waits for a group can be
told from the tokens alone; they are given last first, as reading has them.
-/

namespace Calculator.Token

def unclosed : List Token → Nat
  | [] => 0
  | .leftParen :: read => unclosed read + 1
  | .rightParen :: read => unclosed read - 1
  | _ :: read => unclosed read

/-- The arguments of the innermost open group, the last one first. So many groups that are closed
have been entered from behind; what separates their arguments belongs to the argument around. -/
def arguments : (depth : Nat) → List Token → List (List Token)
  | _, [] => [[]]
  | depth, .rightParen :: read => (arguments (depth + 1) read).modifyHead (.rightParen :: ·)
  | 0, .leftParen :: _ => [[]]
  | depth + 1, .leftParen :: read => (arguments depth read).modifyHead (.leftParen :: ·)
  | 0, .separator :: read => [] :: arguments 0 read
  | depth, t :: read => (arguments depth read).modifyHead (t :: ·)

def lastArgument (read : List Token) : List Token := (arguments 0 read).headD []

/-- Is there a number in it, or a function with a parenthesis right behind it? -/
def valued : List Token → Bool
  | [] => false
  | .number _ :: _ => true
  | .leftParen :: .call _ _ :: _ => true
  | _ :: read => valued read

/-- How many arguments of the innermost open group have a value. -/
def valuedArguments (read : List Token) : Nat := (arguments 0 read).countP valued

/-- Does a function wait for a group to take? Numbers may come between, and groups that take a
function each; an operator, a sign or a separator may not. -/
def functionWaits : (depth taken : Nat) → List Token → Bool
  | _, _, [] => false
  | 0, taken, .rightParen :: read => functionWaits 1 (taken + 1) read
  | 0, taken, .number _ :: read => functionWaits 0 taken read
  | 0, 0, .call _ _ :: _ => true
  | 0, taken + 1, .call _ _ :: read => functionWaits 0 taken read
  | 0, _, _ :: _ => false
  | depth + 1, taken, .rightParen :: read => functionWaits (depth + 2) taken read
  | depth + 1, taken, .leftParen :: read => functionWaits depth taken read
  | depth + 1, taken, _ :: read => functionWaits (depth + 1) taken read

/-- A parenthesis or a separator. -/
def delimits : Token → Bool
  | leftParen | rightParen | separator => true
  | _ => false

/-- A sign, an operator or a function: what is applied to values. -/
def applies : Token → Bool
  | prefixOp _ | binaryOp _ | call _ _ => true
  | _ => false

variable {read inside rest : List Token} {t : Token} {depth : Nat}

theorem arguments_ne_nil (depth : Nat) (read : List Token) : arguments depth read ≠ [] := by
  fun_induction arguments depth read with
  | case1 => simp
  | case2 _ _ ih => simpa [List.modifyHead_eq_nil_iff] using ih
  | case3 => simp
  | case4 _ _ ih => simpa [List.modifyHead_eq_nil_iff] using ih
  | case5 => simp
  | case6 _ _ _ _ _ _ _ ih => simpa [List.modifyHead_eq_nil_iff] using ih

theorem arguments_cons (plain : t.delimits = false) :
    arguments depth (t :: read) = (arguments depth read).modifyHead (t :: ·) := by
  cases t <;> first | (cases depth <;> rfl) | cases plain

theorem arguments_succ_cons (opens : t ≠ .leftParen) (closes : t ≠ .rightParen) :
    arguments (depth + 1) (t :: read) = (arguments (depth + 1) read).modifyHead (t :: ·) := by
  cases t <;> first | rfl | contradiction

theorem headD_modifyHead {f : List Token → List Token} {as : List (List Token)} (some : as ≠ []) :
    (as.modifyHead f).headD [] = f (as.headD []) := by
  cases as with
  | nil => exact absurd rfl some
  | cons a as => rfl

theorem tail_modifyHead {f : List Token → List Token} (as : List (List Token)) :
    (as.modifyHead f).tail = as.tail := by
  cases as <;> rfl

theorem lastArgument_cons (plain : t.delimits = false) :
    lastArgument (t :: read) = t :: lastArgument read := by
  rw [lastArgument, arguments_cons plain, headD_modifyHead (arguments_ne_nil 0 read)]
  rfl

theorem tail_arguments_cons (plain : t.delimits = false) :
    (arguments 0 (t :: read)).tail = (arguments 0 read).tail := by
  rw [arguments_cons plain, tail_modifyHead]

/-- Reading goes past such tokens: their parentheses are matched. Where they are in a group it stops
at the parenthesis in front of them, and reading from within a group behind goes on there. -/
structure Matched (inside : List Token) : Prop where
  unclosed_append (read : List Token) : unclosed (inside ++ read) = unclosed read
  arguments_opening (read : List Token) :
    arguments 0 (inside ++ .leftParen :: read) = arguments 0 inside
  arguments_append (depth : Nat) (read : List Token) : arguments (depth + 1) (inside ++ read) =
    (arguments (depth + 1) read).modifyHead (inside ++ ·)
  functionWaits_opening (taken : Nat) (read : List Token) :
    functionWaits 0 taken (inside ++ .leftParen :: read) = functionWaits 0 taken inside
  functionWaits_append (depth taken : Nat) (read : List Token) :
    functionWaits (depth + 1) taken (inside ++ read) = functionWaits (depth + 1) taken read

theorem arguments_group (matched : Matched inside) (depth : Nat) (read : List Token) :
    arguments depth (.rightParen :: (inside ++ .leftParen :: read)) =
      (arguments depth read).modifyHead fun a => .rightParen :: (inside ++ .leftParen :: a) := by
  simp only [arguments, matched.arguments_append, List.modifyHead_modifyHead]
  rfl

theorem lastArgument_group (matched : Matched inside) :
    lastArgument (.rightParen :: (inside ++ .leftParen :: read)) =
      .rightParen :: (inside ++ .leftParen :: lastArgument read) := by
  rw [lastArgument, arguments_group matched, headD_modifyHead (arguments_ne_nil 0 read)]
  rfl

theorem tail_arguments_group (matched : Matched inside) :
    (arguments 0 (.rightParen :: (inside ++ .leftParen :: read))).tail =
      (arguments 0 read).tail := by
  rw [arguments_group matched, tail_modifyHead]

theorem functionWaits_group (matched : Matched inside) (taken : Nat) (read : List Token) :
    functionWaits 0 taken (.rightParen :: (inside ++ .leftParen :: read)) =
      functionWaits 0 (taken + 1) read := by
  simp only [functionWaits, matched.functionWaits_append]

namespace Matched

theorem nil : Matched [] where
  unclosed_append _ := rfl
  arguments_opening _ := rfl
  arguments_append depth read := by
    rw [List.nil_append]
    cases Token.arguments (depth + 1) read <;> rfl
  functionWaits_opening _ _ := by simp [functionWaits]
  functionWaits_append _ _ _ := rfl

theorem cons (opens : t ≠ .leftParen) (closes : t ≠ .rightParen) (matched : Matched inside) :
    Matched (t :: inside) where
  unclosed_append read := by
    have skip : unclosed (t :: (inside ++ read)) = unclosed (inside ++ read) := by
      cases t <;> first | rfl | contradiction
    rw [List.cons_append, skip, matched.unclosed_append]
  arguments_opening read := by
    cases t with
    | leftParen => contradiction
    | rightParen => contradiction
    | _ => simp only [List.cons_append, arguments, matched.arguments_opening]
  arguments_append depth read := by
    rw [List.cons_append, arguments_succ_cons opens closes, matched.arguments_append,
      List.modifyHead_modifyHead]
    rfl
  functionWaits_opening taken read := by
    cases t with
    | leftParen => contradiction
    | rightParen => contradiction
    | call =>
      cases taken <;> simp only [List.cons_append, functionWaits, matched.functionWaits_opening]
    | _ => simp only [List.cons_append, functionWaits, matched.functionWaits_opening]
  functionWaits_append depth taken read := by
    have skip : functionWaits (depth + 1) taken (t :: (inside ++ read)) =
        functionWaits (depth + 1) taken (inside ++ read) := by
      cases t <;> first | rfl | contradiction
    rw [List.cons_append, skip, matched.functionWaits_append]

theorem group (matched : Matched inside) (before : Matched rest) :
    Matched (.rightParen :: (inside ++ .leftParen :: rest)) where
  unclosed_append read := by
    simp [unclosed, matched.unclosed_append, before.unclosed_append]
  arguments_opening read := by
    rw [List.cons_append, List.append_assoc, List.cons_append, arguments_group matched,
      arguments_group matched, before.arguments_opening]
  arguments_append depth read := by
    rw [List.cons_append, List.append_assoc, List.cons_append, arguments_group matched,
      before.arguments_append, List.modifyHead_modifyHead]
    simp [Function.comp_def]
  functionWaits_opening taken read := by
    rw [List.cons_append, List.append_assoc, List.cons_append, functionWaits_group matched,
      functionWaits_group matched, before.functionWaits_opening]
  functionWaits_append depth taken read := by
    simp [functionWaits, matched.functionWaits_append, before.functionWaits_append]

variable {around : List Token} (bottom : ∀ t ∈ around.head?, t = .leftParen)

include bottom

/-- What is around a group does not tell on its arguments. -/
theorem arguments_bottom (matched : Matched inside) :
    arguments 0 (inside ++ around) = arguments 0 inside := by
  cases around with
  | nil => rw [List.append_nil]
  | cons t around =>
    cases bottom t rfl
    exact matched.arguments_opening around

theorem functionWaits_bottom (matched : Matched inside) (taken : Nat) :
    functionWaits 0 taken (inside ++ around) = functionWaits 0 taken inside := by
  cases around with
  | nil => rw [List.append_nil]
  | cons t around =>
    cases bottom t rfl
    exact matched.functionWaits_opening taken around

end Matched

theorem valued_cons (opens : t ≠ .leftParen) (number : ∀ x, t ≠ .number x) :
    valued (t :: read) = valued read := by
  cases t <;> first | rfl | exact absurd rfl opens | exact absurd rfl (number _)

theorem valued_cons_of_valued (h : valued read = true) : valued (t :: read) = true := by
  unfold valued
  split
  · rename_i empty
    cases empty
  · rfl
  · rfl
  · rename_i same
    cases same
    exact h

/-- No value is made up of what is in a group and the parenthesis that opens it. -/
theorem valued_append_opening (inside rest : List Token) :
    valued (inside ++ .leftParen :: rest) = (valued inside || valued (.leftParen :: rest)) := by
  fun_induction valued inside with
  | case1 => rfl
  | case2 => rfl
  | case3 => rfl
  | case4 t inside number call ih =>
    rw [← ih, List.cons_append, valued]
    · exact number
    · intro name arity tail opens called
      cases inside with
      | nil => cases called
      | cons u inside =>
        cases called
        exact call _ _ _ opens rfl

/-- Where a function waits a parenthesis makes a value: it stands right behind the function, or else
a number or another call is in between. -/
theorem valued_of_functionWaits {taken : Nat} (waits : functionWaits depth taken read = true) :
    valued (if depth = 0 then .leftParen :: (arguments depth read).headD []
      else (arguments depth read).headD []) = true := by
  fun_induction functionWaits depth taken read with
  | case1 => cases waits
  | case2 taken read ih =>
    rw [if_pos rfl, arguments, headD_modifyHead (arguments_ne_nil 1 read)]
    exact valued_cons_of_valued (valued_cons_of_valued (ih waits))
  | case3 taken x read ih =>
    rw [if_pos rfl, arguments_cons rfl, headD_modifyHead (arguments_ne_nil 0 read)]
    rfl
  | case4 name arity read =>
    rw [if_pos rfl, arguments_cons rfl, headD_modifyHead (arguments_ne_nil 0 read)]
    rfl
  | case5 taken name arity read ih =>
    rw [if_pos rfl, arguments_cons rfl, headD_modifyHead (arguments_ne_nil 0 read)]
    rfl
  | case6 => cases waits
  | case7 depth taken read ih =>
    rw [if_neg (Nat.succ_ne_zero depth), arguments, headD_modifyHead (arguments_ne_nil _ read)]
    exact valued_cons_of_valued (ih waits)
  | case8 depth taken read ih =>
    have inside := ih waits
    rw [if_neg (Nat.succ_ne_zero depth), arguments, headD_modifyHead (arguments_ne_nil _ read)]
    split at inside
    · exact inside
    · exact valued_cons_of_valued inside
  | case9 depth taken t read closes opens ih =>
    rw [if_neg (Nat.succ_ne_zero depth), arguments_succ_cons opens closes,
      headD_modifyHead (arguments_ne_nil _ read)]
    exact valued_cons_of_valued (ih waits)

theorem head_arguments_prefix (depth : Nat) (read : List Token) :
    (arguments depth read).headD [] <+: read := by
  fun_induction arguments depth read with
  | case1 => exact List.prefix_rfl
  | case2 depth read ih =>
    rw [headD_modifyHead (arguments_ne_nil _ read)]
    exact List.cons_prefix_cons.mpr ⟨rfl, ih⟩
  | case3 => exact List.nil_prefix
  | case4 depth read ih =>
    rw [headD_modifyHead (arguments_ne_nil _ read)]
    exact List.cons_prefix_cons.mpr ⟨rfl, ih⟩
  | case5 => exact List.nil_prefix
  | case6 depth t read _ _ _ _ ih =>
    rw [headD_modifyHead (arguments_ne_nil _ read)]
    exact List.cons_prefix_cons.mpr ⟨rfl, ih⟩

theorem valued_of_prefix {part : List Token} (front : part <+: read) (h : valued part = true) :
    valued read = true := by
  fun_induction valued part generalizing read with
  | case1 => cases h
  | case2 x part =>
    obtain ⟨back, rfl⟩ := front
    rfl
  | case3 name arity part =>
    obtain ⟨back, rfl⟩ := front
    rfl
  | case4 t part _ _ ih =>
    obtain ⟨back, rfl⟩ := front
    exact valued_cons_of_valued (ih (List.prefix_append part back) h)

/-- A parenthesis makes a value of a function that waits and of nothing else, be it in the argument
alone or together with what is in front of it. -/
theorem valued_opening {part : List Token} (least : lastArgument read <+: part)
    (most : part <+: read) :
    valued (.leftParen :: part) = (valued part || functionWaits 0 0 read) := by
  cases waits : functionWaits 0 0 read with
  | true =>
    rw [Bool.or_true]
    have value : valued (.leftParen :: lastArgument read) = true := valued_of_functionWaits waits
    exact valued_of_prefix (List.cons_prefix_cons.mpr ⟨rfl, least⟩) value
  | false =>
    rw [Bool.or_false]
    obtain ⟨front, rfl⟩ := most
    cases part with
    | nil => rfl
    | cons t part => cases t <;> first | rfl | cases waits

end Calculator.Token
