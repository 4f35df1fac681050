import Calculator.Proofs.Literals
import Calculator.Proofs.Sessions
import Calculator.Proofs.Spelling

/-!
Names of variables. What may be the name of a variable is what reading looks up: letters, at least
one. Letters are no digits and no boundary characters, so such a name is one lexeme, also behind a
literal, which it never makes longer.
-/

namespace Calculator

namespace Text

/-- Some letters. -/
def IsWord (name : String) : Prop := name ≠ "" ∧ ∀ c ∈ name.toList, isLetter c = true

/-- No range of the one list meets a range of the other. -/
def apart (ranges others : List (Nat × Nat)) : Bool :=
  ranges.all fun r => others.all fun s => r.2 < s.1 || s.2 < r.1

theorem within_eq_false_of_apart {n : Nat} {ranges others : List (Nat × Nat)}
    (ascends : ascending ranges = true) (ascends' : ascending others = true)
    (none : apart ranges others = true) (inside : within n ranges = true) :
    within n others = false := by
  obtain ⟨r, mem, low, high⟩ := (within_iff ascends).mp inside
  by_contra both
  obtain ⟨s, mem', low', high'⟩ := (within_iff ascends').mp (Bool.eq_true_of_not_eq_false both)
  have disjoint := List.all_eq_true.mp (List.all_eq_true.mp none r mem) s mem'
  simp only [Bool.or_eq_true, decide_eq_true_eq] at disjoint
  omega

variable {c : Char}

theorem isBlank_of_isLetter (letter : isLetter c = true) : isBlank c = false :=
  within_eq_false_of_apart ascending_letterRanges ascending_blankRanges (by decide +kernel) letter

theorem isDigit_of_isLetter (letter : isLetter c = true) : c.isDigit = false := by
  have outside : within c.toNat [(48, 57)] = false :=
    within_eq_false_of_apart ascending_letterRanges (by decide) (by decide +kernel) letter
  by_contra digit
  have range := Char.isDigit_iff_toNat.mp (Bool.eq_true_of_not_eq_false digit)
  have inside : within c.toNat [(48, 57)] = true :=
    (within_iff (by decide)).mpr ⟨_, List.mem_cons_self, range⟩
  rw [inside] at outside
  cases outside

theorem isBoundary_of_isLetter (letter : isLetter c = true) : Token.isBoundary c = false := by
  have delimiter : Token.isDelimiter c = false := by
    by_contra delimiter
    simp only [Token.isDelimiter, Bool.not_eq_false, Bool.or_eq_true, decide_eq_true_eq]
      at delimiter
    rcases delimiter with (rfl | rfl) | rfl
    · revert letter; decide +kernel
    · revert letter; decide +kernel
    · revert letter; decide +kernel
  have operator : Operator.ofSymbol? c = none := by
    by_contra known
    obtain ⟨op, found⟩ := Option.ne_none_iff_exists'.mp known
    have symbol := Operator.symbol_of_ofSymbol? found
    subst symbol
    cases op <;> revert letter <;> decide +kernel
  simp [Token.isBoundary, isBlank_of_isLetter letter, delimiter, operator]

theorem ne_point_of_isLetter (letter : isLetter c = true) : c ≠ '.' := by
  rintro rfl
  revert letter
  decide +kernel

end Text

namespace Number.Literal

variable {letters : List Char} (word : ∀ c ∈ letters, Text.isLetter c = true)

include word

theorem takeWhile_isDigit_letters : letters.takeWhile Char.isDigit = [] := by
  cases letters with
  | nil => rfl
  | cons c cs =>
    have letter := Text.isDigit_of_isLetter (word c List.mem_cons_self)
    simp [letter]

theorem dropWhile_isDigit_letters : letters.dropWhile Char.isDigit = letters := by
  have parts := List.takeWhile_append_dropWhile (p := Char.isDigit) (l := letters)
  rw [takeWhile_isDigit_letters word, List.nil_append] at parts
  exact parts

/-- Digits end where letters start. -/
theorem takeWhile_isDigit_append (s : List Char) :
    (s ++ letters).takeWhile Char.isDigit = s.takeWhile Char.isDigit := by
  induction s with
  | nil => exact takeWhile_isDigit_letters word
  | cons c s ih =>
    cases digit : c.isDigit with
    | true => simp [digit, ih]
    | false => simp [digit]

theorem dropWhile_isDigit_append (s : List Char) :
    (s ++ letters).dropWhile Char.isDigit = s.dropWhile Char.isDigit ++ letters := by
  induction s with
  | nil => exact dropWhile_isDigit_letters word
  | cons c s ih =>
    cases digit : c.isDigit with
    | true => simp [digit, ih]
    | false => simp [digit]

theorem readFraction_letters : readFraction letters = (none, letters) := by
  cases letters with
  | nil => rfl
  | cons c cs =>
    have other := Text.ne_point_of_isLetter (word c List.mem_cons_self)
    exact readFraction_of_ne_point other cs

theorem readFraction_append (s : List Char) :
    readFraction (s ++ letters) = ((readFraction s).1, (readFraction s).2 ++ letters) := by
  cases s with
  | nil => exact readFraction_letters word
  | cons c s =>
    by_cases point : c = '.'
    · subst point
      simp only [List.cons_append, readFraction, takeWhile_isDigit_append word,
        dropWhile_isDigit_append word]
    · simp only [List.cons_append, readFraction_of_ne_point point]

/-- No exponent starts with letters, even if the first of them could introduce one. -/
theorem readExponent_letters : readExponent letters = (none, letters) := by
  cases letters with
  | nil => rfl
  | cons c cs =>
    have none := takeWhile_isDigit_letters (List.forall_mem_cons.mp word).2
    simp [readExponent, none]

theorem readExponent_append {s : List Char} {exponent : Option (Char × List Char)}
    (whole : readExponent s = (exponent, [])) :
    readExponent (s ++ letters) = (exponent, letters) := by
  cases s with
  | nil =>
    cases whole
    exact readExponent_letters word
  | cons c s =>
    simp only [readExponent] at whole
    split at whole
    · rename_i digits
      simp only [Prod.mk.injEq] at whole
      obtain ⟨rfl, rest⟩ := whole
      simp only [List.cons_append, readExponent, takeWhile_isDigit_append word,
        dropWhile_isDigit_append word, if_pos digits, rest, List.nil_append]
    · cases whole

theorem read?_letters : read? letters = none := by
  simp [read?, takeWhile_isDigit_letters word, dropWhile_isDigit_letters word,
    readFraction_letters word]

/-- Letters behind a literal do not make it longer. -/
theorem read?_append_letters {s : List Char} {l : Literal} (whole : read? s = some (l, [])) :
    read? (s ++ letters) = some (l, letters) := by
  simp only [read?, takeWhile_isDigit_append word, dropWhile_isDigit_append word,
    readFraction_append word] at whole ⊢
  split at whole
  · cases whole
  · rename_i digits
    simp only [Option.some.injEq, Prod.mk.injEq] at whole
    obtain ⟨rfl, rest⟩ := whole
    have exponent := readExponent_append word (Prod.ext rfl rest)
    rw [if_neg digits, exponent]

end Number.Literal

theorem Number.Literal.isBoundary_of_read? {s rest : List Char} {l : Literal}
    (found : read? s = some (l, rest)) : ∀ c ∈ l.text, Token.isBoundary c = false := by
  intro c mem
  rcases (valid_of_read? found).of_mem_text mem with digit | rfl | isMark
  · exact Token.isBoundary_of_isDigit (.inl digit)
  · rfl
  · rcases isExponentMark_iff.mp isMark with rfl | rfl <;> rfl

namespace Lexeme

variable {name : String} (word : Text.IsWord name)

include word

theorem ofRun_word : ofRun name.toList = [.name name.toList] := by
  have unread := Number.Literal.read?_letters word.2
  have letters : name.toList.takeWhile Text.isLetter = name.toList :=
    List.takeWhile_eq_self_iff.mpr word.2
  have rest : name.toList.dropWhile Text.isLetter = [] := List.dropWhile_eq_nil_iff.mpr word.2
  obtain ⟨c, cs, chars⟩ := List.exists_cons_of_ne_nil (show name.toList ≠ [] by simpa using word.1)
  rw [ofRun_letters unread (letters.trans chars), rest, ofRun_nil, chars]

theorem isBoundary_of_word : ∀ c ∈ name.toList, Token.isBoundary c = false :=
  fun c mem => Text.isBoundary_of_isLetter (word.2 c mem)

theorem ofText_word : ofText name = [.name name.toList] := by
  rw [ofText, ofChars_unbroken (isBoundary_of_word word), ofRun_word word]

theorem ofText_literal_word {d : String} {l : Number.Literal}
    (whole : Number.Literal.read? d.toList = some (l, [])) :
    ofText (d ++ name) = [.literal l, .name name.toList] := by
  have written : l.text = d.toList := by
    simpa using Number.Literal.text_append_of_read? whole
  have unbroken : ∀ c ∈ d.toList ++ name.toList, Token.isBoundary c = false := by
    intro c mem
    rcases List.mem_append.mp mem with mem | mem
    · exact Number.Literal.isBoundary_of_read? whole c (written ▸ mem)
    · exact isBoundary_of_word word c mem
  rw [ofText, String.toList_append, ofChars_unbroken unbroken,
    ofRun_literal (Number.Literal.read?_append_letters word.2 whole), ofRun_word word]

end Lexeme

namespace Token

variable {name : String} (word : Text.IsWord name) (env : Environment)

include word

/-- A name alone is read as what it stands for. -/
theorem ofText_word :
    ofText env name =
      match env.lookup name, Builtin.ofName? name with
      | some x, _ => .ok [number x]
      | none, some f => .ok [call f.name 0]
      | none, none => .error (.unknownToken name) := by
  rw [ofText_eq, Lexeme.ofText_word word]
  simp only [List.mapM_cons, List.mapM_nil, Lexeme.token, String.ofList_toList]
  cases env.lookup name with
  | some x => rfl
  | none =>
    cases Builtin.ofName? name with
    | some f => rfl
    | none => rfl

/-- Behind a literal the name is read as a factor. -/
theorem ofText_literal_word {d : String} {l : Number.Literal}
    (whole : Number.Literal.read? d.toList = some (l, [])) {v : Float}
    (value : env.lookup name = some v) :
    ofText env (d ++ name) = .ok [number l.value.toFloat, binaryOp '*', number v] := by
  rw [ofText_eq, Lexeme.ofText_literal_word word whole]
  simp only [List.mapM_cons, List.mapM_nil, Lexeme.token, String.ofList_toList, value]
  rfl

end Token

namespace Lexeme

/-- The names that a text has looked up. -/
def names (text : String) : List String :=
  (ofText text).filterMap fun l => match l with
    | .name letters => some (String.ofList letters)
    | _ => none

theorem isWord_of_mem_names {text name : String} (mem : name ∈ names text) : Text.IsWord name := by
  simp only [names, List.mem_filterMap] at mem
  obtain ⟨l, mem, named⟩ := mem
  cases l with
  | name letters =>
    cases named
    have fits := fits_ofChars text.toList _ mem
    refine ⟨?_, ?_⟩
    · simpa using fits.1
    · simpa using fits.2
  | literal l => cases named
  | boundary c => cases named
  | unreadable rest => cases named

variable {env env' : Environment}

theorem mapM_token_congr {ls : List Lexeme} (same : ∀ l ∈ ls, l.token env = l.token env') :
    ls.mapM (token env) = ls.mapM (token env') := by
  induction ls with
  | nil => rfl
  | cons l ls ih =>
    obtain ⟨first, others⟩ := List.forall_mem_cons.mp same
    rw [List.mapM_cons, List.mapM_cons, first, ih others]

theorem token_congr_names {text : String}
    (agree : ∀ name ∈ names text, env.lookup name = env'.lookup name) :
    ∀ l ∈ ofText text, l.token env = l.token env' := by
  intro l mem
  cases l with
  | name letters =>
    have looked := agree (String.ofList letters) (List.mem_filterMap.mpr ⟨_, mem, rfl⟩)
    simp only [token, looked]
  | literal l => rfl
  | boundary c => rfl
  | unreadable rest => rfl

end Lexeme

/-- Nothing but the names in a text is looked up to read it. -/
theorem Token.ofText_congr_names {env env' : Environment} {text : String}
    (agree : ∀ name ∈ Lexeme.names text, env.lookup name = env'.lookup name) :
    ofText env text = ofText env' text := by
  rw [ofText_eq, ofText_eq, Lexeme.mapM_token_congr (Lexeme.token_congr_names agree)]

namespace Environment

/-- The key of every variable is a name. -/
def Named (env : Environment) : Prop := ∀ key v, env.lookup key = some v → Text.IsWord key

theorem isName_iff {name : String} : isName name = true ↔ Text.IsWord name := by
  simp [isName, Text.IsWord]

theorem named_ofSeed (seed : UInt32) : (ofSeed seed).Named := by
  intro key v value
  have known : key = "pi" ∨ key = "tau" ∨ key = "e" := by
    have value' : constants[key]? = some v := value
    have mem : key ∈ constants := Std.TreeMap.mem_iff_isSome_getElem?.mpr (by simp [value'])
    simpa [constants, Std.TreeMap.mem_ofList] using mem
  rcases known with rfl | rfl | rfl
  · exact isName_iff.mp (by decide +kernel)
  · exact isName_iff.mp (by decide +kernel)
  · exact isName_iff.mp (by decide +kernel)

section Change

variable {env : Environment} (named : env.Named) (name : String)

theorem lookup_insert (other : String) (v : Float) :
    lookup { env with values := env.values.insert name v } other =
      if name = other then some v else env.lookup other := by
  simp only [lookup, Std.TreeMap.getElem?_insert, Std.LawfulEqCmp.compare_eq_iff_eq]

theorem lookup_remove (other : String) :
    (env.remove name).2.lookup other = if name = other then none else env.lookup other := by
  simp only [lookup, remove, Std.TreeMap.getElem?_erase, Std.LawfulEqCmp.compare_eq_iff_eq]

theorem set_word {name : String} (word : Text.IsWord name) (v : Float) :
    env.set name v =
      .ok (env.lookup name, { env with values := env.values.insert name v }) := by
  rw [set, if_pos (isName_iff.mpr word)]

theorem set_other {name : String} (other : ¬ Text.IsWord name) (v : Float) :
    env.set name v = .error (.variableName name) := by
  rw [set, if_neg fun valid => other (isName_iff.mp valid)]

include named

theorem Named.set {name : String} {v : Float} {before : Option Float} {after : Environment}
    (done : env.set name v = .ok (before, after)) : after.Named := by
  by_cases word : Text.IsWord name
  · rw [set_word word] at done
    cases done
    intro key x value
    rw [lookup_insert] at value
    split at value
    · rename_i same
      exact same ▸ word
    · exact named key x value
  · rw [set_other word] at done
    cases done

theorem Named.remove : (env.remove name).2.Named := by
  intro key x value
  rw [lookup_remove] at value
  split at value
  · cases value
  · exact named key x value

theorem Named.lookup_of_not_isWord {name : String} (other : ¬ Text.IsWord name) :
    env.lookup name = none := by
  by_contra some
  obtain ⟨v, value⟩ := Option.ne_none_iff_exists'.mp some
  exact other (named name v value)

end Change

/-- A value that texts can refer to by a name, also as a factor behind any literal. -/
def RefersTo (env : Environment) (name : String) (v : Float) : Prop :=
  Token.ofText env name = .ok [.number v] ∧
    ∀ (d : String) (l : Number.Literal), Number.Literal.read? d.toList = some (l, []) →
      Token.ofText env (d ++ name) =
        .ok [.number l.value.toFloat, .binaryOp '*', .number v]

theorem refersTo_of_lookup {env : Environment} {name : String} {v : Float}
    (word : Text.IsWord name) (value : env.lookup name = some v) : env.RefersTo name v := by
  refine ⟨?_, fun d l whole => Token.ofText_literal_word word env whole value⟩
  rw [Token.ofText_word word, value]

/-- A value at what is no name is out of the reach of texts. -/
theorem ofText_insert_of_not_isWord (env : Environment) {name : String}
    (other : ¬ Text.IsWord name) (v : Float) (text : String) :
    Token.ofText { env with values := env.values.insert name v } text =
      Token.ofText env text := by
  refine Token.ofText_congr_names fun key mem => ?_
  have differs : name ≠ key := by
    rintro rfl
    exact other (Lexeme.isWord_of_mem_names mem)
  rw [lookup_insert, if_neg differs]

end Environment

namespace Session

/-- The key of every variable is a name, in all environments. -/
def Named (s : Session) : Prop := ∀ place env, s.environment? place = some env → env.Named

namespace Named

variable {s : Session} (named : s.Named)

include named

theorem putEnvironment {env : Environment} (new : env.Named) (place : String) :
    (s.putEnvironment place env).Named := by
  intro other found there
  rw [environment?_putEnvironment] at there
  split at there
  · cases there
    exact new
  · exact named other found there

theorem keep (slot : String) (result : Except Error Formula) : (s.keep slot result).2.Named := by
  cases result with
  | ok f => exact named
  | error e => exact named

theorem act {place : String} {env : Environment} (there : s.environment? place = some env)
    (a : Action) : (s.act place env a).2.Named := by
  have own := named place env there
  by_cases evaluates : a.Evaluates
  · intro other found there'
    rw [environment?_act there evaluates] at there'
    split at there'
    · cases there'
      exact own
    · exact named other found there'
  · cases a with
    | fork other => exact named.putEnvironment own other
    | setVariable key v =>
      simp only [Session.act]
      cases done : env.set key v with
      | error e => exact named
      | ok result => exact named.putEnvironment (own.set done) place
    | removeVariable key => exact named.putEnvironment (own.remove key) place
    | reseed seed =>
      have reseeded : (env.reseed seed).Named := own
      exact named.putEnvironment reseeded place
    | compile slot text => exact named.keep slot _
    | refresh slot =>
      simp only [Session.act]
      cases s.formula? slot with
      | none => exact named
      | some f => exact named.keep slot _
    | recompile slot =>
      simp only [Session.act]
      cases s.formula? slot with
      | none => exact named
      | some f => exact named.keep slot _
    | copy slot other =>
      simp only [Session.act]
      cases s.formula? slot with
      | none => exact named
      | some f => exact named
    | tokenize text =>
      simp only [Session.act]
      split <;> exact named
    | toCode tokens =>
      simp only [Session.act]
      split <;> exact named
    | lookup key => exact named
    | seed => exact named
    | describe => exact named
    | _ => exact absurd trivial evaluates

theorem run (c : Command) : (s.run c).2.Named := by
  cases c with
  | create place seed =>
    refine named.putEnvironment ?_ place
    cases seed with
    | none => exact Environment.named_ofSeed _
    | some n => exact Environment.named_ofSeed n
  | inEnvironment place a =>
    simp only [Session.run]
    cases there : s.environment? place with
    | none => exact named
    | some env => exact named.act there a

theorem runAll (commands : List Command) : (s.runAll commands).2.Named := by
  induction commands generalizing s with
  | nil => exact named
  | cons c rest ih => exact ih (named.run c)

end Named

theorem named_empty : empty.Named := by
  intro place env there
  rw [environment?_empty] at there
  cases there

/-- In all that a session can lead to, what can be given a value is what texts can refer to. -/
theorem names_of_reached {commands : List Command} {place : String} {env : Environment}
    (reached : (empty.runAll commands).2.environment? place = some env) (name : String)
    (v : Float) :
    let s := (empty.runAll commands).2
    let command := Command.inEnvironment place (.setVariable name v)
    (Text.IsWord name →
      (∃ after, env.set name v = .ok (env.lookup name, after) ∧
        s.run command = (.number (env.lookup name), s.putEnvironment place after) ∧
        after.RefersTo name v) ∧
      Token.ofText (env.remove name).2 name =
        (Builtin.ofName? name).elim (.error (.unknownToken name)) fun f => .ok [.call f.name 0]) ∧
    (¬ Text.IsWord name →
      env.set name v = .error (.variableName name) ∧
      s.run command = (.failure (.variableName name), s) ∧ (env.remove name).1 = none ∧
      (∀ text, name ∉ Lexeme.names text) ∧
      ∀ text, Token.ofText { env with values := env.values.insert name v } text =
        Token.ofText env text) ∧
    (∀ key x, env.lookup key = some x → Text.IsWord key ∧ env.RefersTo key x) ∧
    ∀ (text : String) (env' : Environment),
      (∀ key ∈ Lexeme.names text, env.lookup key = env'.lookup key) →
        Token.ofText env text = Token.ofText env' text := by
  have named : env.Named := named_empty.runAll commands place env reached
  refine ⟨fun word => ⟨?_, ?_⟩, fun other => ?_, fun key x value => ?_, fun text env' agree => ?_⟩
  · refine ⟨_, Environment.set_word word v, ?_, ?_⟩
    · rw [run_inEnvironment reached, act, Environment.set_word word]
    · exact Environment.refersTo_of_lookup word (by rw [Environment.lookup_insert, if_pos rfl])
  · rw [Token.ofText_word word, Environment.lookup_remove, if_pos rfl]
    cases Builtin.ofName? name with
    | none => rfl
    | some f => rfl
  · have refused : env.set name v = .error (.variableName name) := Environment.set_other other v
    refine ⟨refused, ?_, named.lookup_of_not_isWord other, ?_, ?_⟩
    · rw [run_inEnvironment reached, act, refused]
    · exact fun text mem => other (Lexeme.isWord_of_mem_names mem)
    · exact env.ofText_insert_of_not_isWord other v
  · have word := named key x value
    exact ⟨word, Environment.refersTo_of_lookup word value⟩
  · exact Token.ofText_congr_names agree

/-- The first letter could have introduced an exponent. -/
theorem names_of_created :
    (empty.runAll [.create "a" none]).2.environment? "a" = some .initial ∧
      Text.IsWord "exp" ∧ ¬ Text.IsWord "x1" ∧
      Number.Literal.read? "2".toList = some (⟨['2'], none, none⟩, []) ∧
      (∃ after, Environment.initial.set "exp" 3 = .ok (none, after) ∧
        Token.ofText after "exp" = .ok [.number 3] ∧
        Token.ofText after "2exp" =
          .ok [.number (Number.Literal.value ⟨['2'], none, none⟩).toFloat, .binaryOp '*',
            .number 3]) ∧
      Environment.initial.set "x1" 3 = .error (.variableName "x1") ∧
      Environment.initial.RefersTo "e" 2.718281828459045 := by
  have reached : (empty.runAll [.create "a" none]).2.environment? "a" = some .initial := by
    simp only [runAll, run, environment?_putEnvironment, if_pos, Option.elim]
  have word : Text.IsWord "exp" := Environment.isName_iff.mp (by decide +kernel)
  have other : ¬ Text.IsWord "x1" := fun word =>
    absurd (Environment.isName_iff.mpr word) (by decide +kernel)
  have literal : Number.Literal.read? "2".toList = some (⟨['2'], none, none⟩, []) := by decide
  obtain ⟨⟨after, set, _, alone, behind⟩, _⟩ := (names_of_reached reached "exp" 3).1 word
  have refused := ((names_of_reached reached "x1" 3).2.1 other).1
  have constant := ((names_of_reached reached "exp" 3).2.2.1 "e" _ rfl).2
  have factor := behind "2" _ literal
  exact ⟨reached, word, other, literal, ⟨after, set, alone, factor⟩, refused, constant⟩

end Session

end Calculator
