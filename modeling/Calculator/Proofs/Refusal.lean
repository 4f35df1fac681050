import Calculator.Proofs.Faults
import Calculator.Proofs.Remembrance

/-!
Why tokens do not compile, told from the tokens: the first that is refused for what is in front of
it says so, else a parenthesis that is not closed, else that there is nothing but parentheses.
-/

namespace Calculator

namespace Token

/-- For what error a token is refused behind others, which are given last first. A separator needs a
value in the argument that it ends. -/
inductive Refused (read : List Token) : Token → Error → Prop
  | tuple (n : Nat) : Refused read (.tuple n) (.equation .strayTuple)
  | operator {c : Char} (unknown : Operator.ofSymbol? c = none) :
    Refused read (.binaryOp c) (.operator c)
  | closing (closed : unclosed read = 0) : Refused read .rightParen .unbalancedParenthesis
  | separator (valueless : valued (lastArgument read) = false) :
    Refused read .separator .misplacedSeparator

/-- No token is refused for what is in front of it. -/
def Admitted : (read : List Token) → Prop
  | [] => True
  | t :: read => (∀ e, ¬ Refused read t e) ∧ Admitted read

/-- Tokens that do not compile, and for what error. -/
inductive Uncompilable (tokens : List Token) : Error → Prop
  | refused {before after : List Token} {t : Token} {e : Error}
    (split : tokens = before ++ t :: after) (admitted : Admitted before.reverse)
    (refused : Refused before.reverse t e) : Uncompilable tokens e
  | unclosed (admitted : Admitted tokens.reverse) (opened : 0 < unclosed tokens.reverse) :
    Uncompilable tokens .unbalancedParenthesis
  | empty (nothing : tokens = []) : Uncompilable tokens (.equation .empty)
  | noValue (admitted : Admitted tokens.reverse) (closed : unclosed tokens.reverse = 0)
    (some : tokens ≠ []) (parens : ∀ t ∈ tokens, Code.Yard.isParen t = true) :
    Uncompilable tokens (.equation .noValue)

theorem valued_of_parens {read : List Token} (parens : ∀ t ∈ read, Code.Yard.isParen t = true) :
    valued read = false := by
  fun_induction valued read with
  | case1 => rfl
  | case2 x read => cases parens _ List.mem_cons_self
  | case3 f claimed read => cases parens _ (List.mem_cons_of_mem _ List.mem_cons_self)
  | case4 t read _ _ ih => exact ih fun u mem => parens u (List.mem_cons_of_mem t mem)

end Token

theorem Nest.balanced_of_parens (nest : Nest)
    (parens : ∀ t ∈ nest.tokens, Code.Yard.isParen t = true) : Token.Balanced nest.tokens := by
  induction nest with
  | nil => exact .nil
  | group inner rest ihInner ihRest =>
    simp only [tokens, List.forall_mem_cons, List.forall_mem_append] at parens
    exact .group (ihInner parens.2.1) (ihRest parens.2.2.2)
  | number | sign | operator | separator | name => cases parens _ List.mem_cons_self

namespace Code

open Token (Refused Admitted Uncompilable unclosed valued lastArgument)

namespace Yard

variable {y z : Yard} {read tokens : List Token} {t : Token} {e : Error}

theorem push_eq_error_iff (remembers : y.Remembers read) :
    y.push t = .error e ↔ Refused read t e := by
  constructor
  · intro refused
    cases refuses_of_push refused with
    | operator unknown => exact .operator unknown
    | tuple n => exact .tuple n
    | separator =>
      refine .separator ?_
      rw [← remembers.hasValue]
      simp only [push, separate] at refused
      split at refused
      · cases refused
      · rename_i none
        exact Bool.not_eq_true _ ▸ none
    | closing =>
      refine .closing ?_
      obtain ⟨encloses, describes, base⟩ := remembers
      rw [describes.matched.unclosed_append]
      cases encloses with
      | formula => rfl
      | group encloses _ _ =>
        rw [push_rightParen encloses.bottom base] at refused
        cases refused
  · intro refused
    cases refused with
    | tuple n => rfl
    | operator unknown => simp [push, binary, unknown]
    | closing closed =>
      have outer := remembers.outer_eq_nil_iff.mpr closed
      simp [push, close, outer]
    | separator valueless =>
      have none := remembers.hasValue.trans valueless
      simp [push, separate, none]

/-- A run breaks off at a token when those in front of it have been pushed. -/
theorem run_eq_error_iff :
    y.run tokens = .error e ↔
      ∃ before t after m, tokens = before ++ t :: after ∧ y.run before = .ok m ∧
        m.push t = .error e := by
  constructor
  · intro broke
    induction tokens generalizing y with
    | nil => cases broke
    | cons t tokens ih =>
      rw [run_cons] at broke
      cases pushed : y.push t with
      | error e' =>
        rw [pushed] at broke
        cases broke
        exact ⟨[], t, tokens, y, rfl, rfl, pushed⟩
      | ok m =>
        rw [pushed] at broke
        obtain ⟨before, u, after, n, rfl, ran, refused⟩ := ih broke
        exact ⟨t :: before, u, after, n, rfl, (run_cons_ok pushed before).trans ran, refused⟩
  · rintro ⟨before, t, after, m, rfl, ran, refused⟩
    rw [run_append_ok ran, run_cons, refused]

theorem admitted_iff : Admitted tokens.reverse ↔ ∃ y, initial.run tokens = .ok y := by
  induction tokens using List.reverseRecOn with
  | nil => exact ⟨fun _ => ⟨initial, rfl⟩, fun _ => trivial⟩
  | append_singleton tokens t ih =>
    rw [List.reverse_append, List.reverse_singleton, List.singleton_append, Admitted, ih]
    constructor
    · rintro ⟨unrefused, m, ran⟩
      rw [run_append_ok ran, run_cons]
      cases pushed : m.push t with
      | error e => exact (unrefused e ((push_eq_error_iff (remembers_of_run ran)).mp pushed)).elim
      | ok z => exact ⟨z, rfl⟩
    · rintro ⟨y, ran⟩
      obtain ⟨m, first, last⟩ := exists_of_run_append ran
      obtain ⟨z, pushed, _⟩ := exists_of_run_cons last
      refine ⟨fun e refused => ?_, m, first⟩
      rw [(push_eq_error_iff (remembers_of_run first)).mpr refused] at pushed
      cases pushed

/-- Where nothing is in the code and only parentheses wait, there were only parentheses. -/
theorem parens_of_run (ran : initial.run tokens = .ok y) (nothing : y.code = [])
    (idle : ∀ t ∈ y.waiting, isParen t = true) : ∀ t ∈ tokens, isParen t = true := by
  induction tokens using List.reverseRecOn generalizing y with
  | nil => simp
  | append_singleton tokens t ih =>
    obtain ⟨m, first, last⟩ := exists_of_run_append ran
    obtain ⟨z, pushed, last⟩ := exists_of_run_cons last
    cases last
    obtain ⟨sent, dropped, left, emitted, waits, replaces, before, code, waiting⟩ :=
      exists_of_push pushed
    rw [code] at nothing
    obtain ⟨rfl, sentNone, nothing⟩ : emitted = [] ∧ sent.reverse = [] ∧ m.code = [] := by
      simpa using nothing
    rw [List.reverse_eq_nil_iff.mp sentNone, List.nil_append] at before
    rw [waiting] at idle
    obtain ⟨idleNow, idleLeft⟩ := List.forall_mem_append.mp idle
    have parens (droppedParens : ∀ t ∈ dropped, isParen t = true) :
        ∀ t ∈ tokens, isParen t = true := by
      apply ih first nothing
      rw [before]
      exact List.forall_mem_append.mpr ⟨droppedParens, idleLeft⟩
    rw [List.forall_mem_append, List.forall_mem_singleton]
    cases replaces with
    | sign | operator | name => cases idleNow _ List.mem_cons_self
    | opening => exact ⟨parens (by simp), rfl⟩
    | single => exact ⟨parens (by simp [isParen]), rfl⟩
    | separator =>
      -- A separator that is admitted has a value in front of it, so not just parentheses.
      have remembers := remembers_of_run first
      have valueless : valued (lastArgument tokens.reverse) = false := by
        apply Token.valued_of_parens
        intro t mem
        have inside := (Token.head_arguments_prefix 0 tokens.reverse).subset mem
        exact parens (by simp) t (List.mem_reverse.mp inside)
      rw [(push_eq_error_iff remembers).mpr (.separator valueless)] at pushed
      cases pushed

theorem eq_initial_of_parens (ran : initial.run tokens = .ok y) (closed : y.outer = [])
    (parens : ∀ t ∈ tokens, isParen t = true) : y = initial := by
  obtain ⟨nest, enclosing, length, whole⟩ := exists_nest ran closed
  cases List.length_eq_zero_iff.mp length
  rw [List.flatMap_nil, List.append_nil] at whole
  subst whole
  rw [run_balanced (nest.balanced_of_parens parens) initial (by simp [initial])] at ran
  exact (Except.ok.inj ran).symm

theorem Remembers.finish_of_opened (remembers : y.Remembers read) (opened : 0 < unclosed read) :
    y.finish = .error .unbalancedParenthesis := by
  rw [← remembers.length_outer, List.length_pos_iff] at opened
  rw [finish, if_pos opened]

theorem Remembers.finish_error (remembers : y.Remembers read) (closed : unclosed read = 0)
    (h : y.finish = .error e) : e = .equation .noValue ∧ y.code = [] ∧ y.waiting = [] := by
  rcases error_of_finish h with rfl | ⟨rfl, _, code, waiting⟩
  · have outer := remembers.outer_eq_nil_iff.mpr closed
    have operators : ¬ y.waiting.any isParen = true := by simp [remembers.any_isParen outer]
    have ended (code : List Token) :
        (if code = [] then Except.error (.equation .noValue) else .ok code.reverse) ≠
          .error Error.unbalancedParenthesis := by
      split <;> simp
    rw [finish, if_neg (not_not.mpr outer), if_neg operators] at h
    exact (ended _ h).elim
  · exact ⟨rfl, code, waiting⟩

end Yard

section Whole

open Yard

variable {tokens : List Token} {e : Error}

theorem uncompilable_of_ofTokens (failed : ofTokens tokens = .error e) :
    Uncompilable tokens e := by
  unfold ofTokens at failed
  split at failed
  · rename_i nothing
    cases failed
    exact .empty nothing
  · rename_i some
    split at failed
    · rename_i broke
      cases failed
      obtain ⟨before, t, after, m, split, ran, refused⟩ := run_eq_error_iff.mp broke
      exact .refused split (admitted_iff.mpr ⟨m, ran⟩)
        ((push_eq_error_iff (remembers_of_run ran)).mp refused)
    · rename_i y ran
      have admitted := admitted_iff.mpr ⟨y, ran⟩
      have remembers := remembers_of_run ran
      rcases Nat.eq_zero_or_pos (unclosed tokens.reverse) with closed | opened
      · obtain ⟨rfl, code, waiting⟩ := remembers.finish_error closed failed
        exact .noValue admitted closed some (parens_of_run ran code (by simp [waiting]))
      · rw [remembers.finish_of_opened opened] at failed
        cases failed
        exact .unclosed admitted opened

theorem ofTokens_of_uncompilable (uncompilable : Uncompilable tokens e) :
    ofTokens tokens = .error e := by
  cases uncompilable with
  | empty nothing => rw [ofTokens, if_pos nothing]
  | @refused before after t e split admitted refused =>
    obtain ⟨m, ran⟩ := admitted_iff.mp admitted
    have broke := run_eq_error_iff.mpr
      ⟨before, t, after, m, split, ran, (push_eq_error_iff (remembers_of_run ran)).mpr refused⟩
    have some : tokens ≠ [] := by simp [split]
    simp only [ofTokens, if_neg some, broke]
  | unclosed admitted opened =>
    obtain ⟨y, ran⟩ := admitted_iff.mp admitted
    have some : tokens ≠ [] := by
      rintro rfl
      exact absurd opened (Nat.lt_irrefl 0)
    simp only [ofTokens, if_neg some, ran, (remembers_of_run ran).finish_of_opened opened]
  | noValue admitted closed some parens =>
    obtain ⟨y, ran⟩ := admitted_iff.mp admitted
    have outer := (remembers_of_run ran).outer_eq_nil_iff.mpr closed
    rw [eq_initial_of_parens ran outer parens] at ran
    simp only [ofTokens, if_neg some, ran]
    rfl

end Whole

/-- Tokens compile unless one of them is refused, a parenthesis is left open or they are nothing but
parentheses, and it can be read off them which error is reported. -/
theorem ofTokens_eq_error_iff (tokens : List Token) :
    (∀ e, ofTokens tokens = .error e ↔ Uncompilable tokens e) ∧
      ((∃ code, ofTokens tokens = .ok code) ↔ ∀ e, ¬ Uncompilable tokens e) := by
  have errors (e : Error) : ofTokens tokens = .error e ↔ Uncompilable tokens e :=
    ⟨uncompilable_of_ofTokens, ofTokens_of_uncompilable⟩
  refine ⟨errors, ?_⟩
  constructor
  · rintro ⟨code, compiled⟩ e uncompilable
    rw [(errors e).mpr uncompilable] at compiled
    cases compiled
  · intro compilable
    cases compiled : ofTokens tokens with
    | error e => exact (compilable e ((errors e).mp compiled)).elim
    | ok code => exact ⟨code, rfl⟩

end Code

end Calculator
