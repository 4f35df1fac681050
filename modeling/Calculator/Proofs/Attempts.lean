import Calculator.Proofs.Draws

/-!
Evaluation as it is attempted. A function reads its arguments by index, from a buffer that has room
for a few numbers only, and a tuple reserves its room at once. An attempt breaks down where an
argument is not there or where more room is asked for than the stack has values, and it is on record
what each attempt does. The checks that come first are enough: no attempt breaks down, all it does
is sound, and it ends as evaluation does.
-/

namespace Calculator

namespace Builtin

/-- The value at arguments that nobody has counted, if all that are read are there. Any others are
passed over. -/
def applyAt? (f : Builtin) (args : List Float) (g : Random.Generator) :
    Option (Float × Random.Generator) :=
  match f with
  | sin => args[0]?.map fun x => (x.sin, g)
  | cos => args[0]?.map fun x => (x.cos, g)
  | tan => args[0]?.map fun x => (x.tan, g)
  | asin => args[0]?.map fun x => (inverse Float.asin x, g)
  | acos => args[0]?.map fun x => (inverse Float.acos x, g)
  | atan => args[0]?.map fun x => (x.atan, g)
  | abs => args[0]?.map fun x => (x.abs, g)
  | ceil => args[0]?.map fun x => (x.ceil, g)
  | floor => args[0]?.map fun x => (x.floor, g)
  | min => do
    let a ← args[0]?
    let b ← args[1]?
    some (if a < b then a else b, g)
  | max => do
    let a ← args[0]?
    let b ← args[1]?
    some (if a > b then a else b, g)
  | random => do
    let low ← args[0]?
    let high ← args[1]?
    some (low + (high - low) * g.next.1, g.next.2)
  | lerp => do
    let a ← args[0]?
    let b ← args[1]?
    let t ← args[2]?
    some (a + (b - a) * t, g)

theorem applyAt?_eq_apply {f : Builtin} {args : List Float} (count : args.length = f.arity)
    (g : Random.Generator) : f.applyAt? args g = some (f.apply args count g) := by
  unfold apply
  split <;> rfl

/-- Fewer arguments than the function has are never enough. -/
theorem applyAt?_eq_none_iff {f : Builtin} {args : List Float} {g : Random.Generator} :
    f.applyAt? args g = none ↔ args.length < f.arity := by
  cases f <;> rcases args with _ | ⟨a, _ | ⟨b, _ | ⟨c, args⟩⟩⟩ <;> simp [applyAt?, arity]

end Builtin

namespace Code

/-- How many numbers the buffer for arguments holds. -/
def capacity : Nat := 4

theorem arity_le_capacity (f : Builtin) : f.arity ≤ capacity := by cases f <;> decide

inductive Halt
  | refused (e : Error)
  | breakdown
deriving DecidableEq

/-- What is done for a tuple or a call, with the stack or the buffer that it is done to. A function
is invoked when its arguments are no longer on the stack, which is given as the call found it. -/
inductive Deed
  | reserve (room : Nat) (stack : List Value)
  | take (stack : List Value)
  | store (buffer : List Float)
  | invoke (f : Builtin) (args : List Float) (stack : List Value)
deriving DecidableEq

namespace Deed

def Sound : Deed → Prop
  | reserve room stack => room ≤ stack.length
  | take stack => stack ≠ []
  | store buffer => buffer.length < capacity
  | invoke f args stack => args.length = f.arity ∧ Machine.numbers args <+: stack

def invoked? : Deed → Option Builtin
  | invoke f _ _ => some f
  | _ => none

end Deed

structure Attempt (α : Type) where
  outcome : Except Halt α
  deeds : List Deed

namespace Attempt

variable {α β : Type}

/-- What comes next is not done any more once the attempt has halted. -/
def andThen (x : Attempt α) (next : α → Attempt β) : Attempt β :=
  match x.outcome with
  | .error h => ⟨.error h, x.deeds⟩
  | .ok a => ⟨(next a).outcome, x.deeds ++ (next a).deeds⟩

instance : Monad Attempt where
  pure a := ⟨.ok a, []⟩
  bind := andThen

def ofResult (r : Except Error α) : Attempt α := ⟨r.mapError .refused, []⟩

def refuse (e : Error) : Attempt α := ofResult (.error e)

/-- There is room for as many numbers as the stack has values, and need not be for more. -/
def reserve (room : Nat) (stack : List Value) : Attempt Unit :=
  ⟨if room ≤ stack.length then .ok () else .error .breakdown, [.reserve room stack]⟩

def take (stack : List Value) : Attempt (Float × List Value) :=
  ⟨(Machine.popScalar stack).mapError .refused, [.take stack]⟩

/-- Puts a number into the buffer; one that is full is treated as an error of the call. -/
def store (full : Error) (buffer : List Float) (x : Float) : Attempt (List Float) :=
  ⟨if buffer.length < capacity then .ok (buffer ++ [x]) else .error (.refused full),
    [.store buffer]⟩

def invoke (f : Builtin) (args : List Float) (stack : List Value) (g : Random.Generator) :
    Attempt (Float × Random.Generator) :=
  ⟨(f.applyAt? args g).elim (.error .breakdown) .ok, [.invoke f args stack]⟩

/-- Numbers are taken off the stack one by one and put away in that order. -/
def takeInto (put : List Float → Float → Attempt (List Float)) :
    (count : Nat) → List Value → List Float → Attempt (List Float × List Value)
  | 0, stack, away => pure (away, stack)
  | count + 1, stack, away => do
    let (x, stack) ← take stack
    let away ← put away x
    takeInto put count stack away

def call (m : Machine) (name : String) (arity : Nat) : Attempt Machine :=
  match Builtin.ofName? name with
  | none => refuse (.function name)
  | some f =>
    if arity < f.arity then refuse (.tooFewArguments name f.arity arity)
    else if f.arity < arity ∨ capacity < arity then refuse (.tooManyArguments name f.arity arity)
    else if m.stack.length < arity then refuse (.tooFewArguments name f.arity m.stack.length)
    else do
      let (buffer, stack) ← takeInto (store (.tooManyArguments name f.arity arity)) arity m.stack []
      let (x, generator) ← invoke f buffer.reverse m.stack m.generator
      pure ⟨.scalar x :: stack, generator⟩

def tuple (m : Machine) (arity : Nat) : Attempt Machine :=
  if m.stack.length < arity then refuse (.operand (.shortTuple arity m.stack.length))
  else do
    reserve arity m.stack
    let (components, stack) ← takeInto (fun xs x => pure (xs ++ [x])) arity m.stack []
    pure { m with stack := .tuple components.reverse :: stack }

def step (m : Machine) : Token → Attempt Machine
  | .call name arity => call m name.text arity
  | .tuple arity => tuple m arity
  | token => ofResult (m.step token)

def run (m : Machine) : List Token → Attempt Unit × Machine
  | [] => (pure (), m)
  | token :: rest =>
    match step m token with
    | ⟨.error h, deeds⟩ => (⟨.error h, deeds⟩, m)
    | ⟨.ok next, deeds⟩ =>
      let (x, last) := run next rest
      (⟨x.outcome, deeds ++ x.deeds⟩, last)

def evaluate (code : List Token) (g : Random.Generator) :
    Attempt (List Float) × Random.Generator :=
  if code = [] then (refuse (.equation .empty), g)
  else
    let (x, m) := run ⟨[], g⟩ code
    (x >>= fun _ => ofResult m.result, m.generator)

section Bind

variable {x : Attempt α} {next : α → Attempt β}

theorem bind_of_error {h : Halt} (halted : x.outcome = .error h) :
    x >>= next = ⟨.error h, x.deeds⟩ := by
  change x.andThen next = _
  rw [andThen, halted]

theorem bind_of_ok {a : α} (reached : x.outcome = .ok a) :
    x >>= next = ⟨(next a).outcome, x.deeds ++ (next a).deeds⟩ := by
  change x.andThen next = _
  rw [andThen, reached]

end Bind

/-- The attempt ends as it should, does nothing unsound, and invokes the functions if it succeeds
and none if it does not. -/
structure Carries (x : Attempt α) (r : Except Error α) (fs : List Builtin) : Prop where
  outcome : x.outcome = r.mapError .refused
  sound : ∀ d ∈ x.deeds, d.Sound
  invoked : x.deeds.filterMap Deed.invoked? = r.toOption.elim [] fun _ => fs

namespace Carries

variable {x : Attempt α} {next : α → Attempt β} {fs : List Builtin}

theorem ofResult (r : Except Error α) : Carries (ofResult r) r [] where
  outcome := rfl
  sound := nofun
  invoked := by cases r <;> rfl

theorem done (a : α) : Carries (pure a) (.ok a) [] := ofResult (.ok a)

theorem refuse (e : Error) : Carries (refuse e : Attempt α) (.error e) fs where
  outcome := rfl
  sound := nofun
  invoked := rfl

theorem bind_error {e : Error} (first : Carries x (.error e) []) :
    Carries (x >>= next) (.error e) fs := by
  rw [bind_of_error first.outcome]
  exact ⟨rfl, first.sound, first.invoked⟩

theorem bind_ok {a : α} {r : Except Error β} (first : Carries x (.ok a) [])
    (second : Carries (next a) r fs) : Carries (x >>= next) r fs := by
  rw [bind_of_ok first.outcome]
  refine ⟨second.outcome, fun d mem => ?_, ?_⟩
  · rcases List.mem_append.mp mem with mem | mem
    · exact first.sound d mem
    · exact second.sound d mem
  · rw [List.filterMap_append, first.invoked, second.invoked]
    rfl

theorem bind_pure {a : α} {f : α → β} (only : Carries x (.ok a) fs) :
    Carries (x >>= fun a => pure (f a)) (.ok (f a)) fs := by
  have nothing : (pure (f a) : Attempt β).deeds = [] := rfl
  rw [bind_of_ok only.outcome, nothing, List.append_nil]
  exact ⟨rfl, only.sound, only.invoked⟩

end Carries

theorem carries_take {stack : List Value} (some : stack ≠ []) :
    Carries (take stack) (Machine.popScalar stack) [] where
  outcome := rfl
  sound := List.forall_mem_singleton.mpr some
  invoked := by cases Machine.popScalar stack <;> rfl

theorem carries_store (full : Error) {buffer : List Float} (room : buffer.length < capacity)
    (x : Float) : Carries (store full buffer x) (.ok (buffer ++ [x])) [] where
  outcome := if_pos room
  sound := List.forall_mem_singleton.mpr room
  invoked := rfl

theorem carries_reserve {room : Nat} {stack : List Value} (enough : room ≤ stack.length) :
    Carries (reserve room stack) (.ok ()) [] where
  outcome := if_pos enough
  sound := List.forall_mem_singleton.mpr enough
  invoked := rfl

theorem carries_invoke {f : Builtin} {args : List Float} {stack : List Value}
    (count : args.length = f.arity) (top : Machine.numbers args <+: stack) (g : Random.Generator) :
    Carries (invoke f args stack g) (.ok (f.apply args count g)) [f] where
  outcome := by rw [invoke, Builtin.applyAt?_eq_apply count]; rfl
  sound := List.forall_mem_singleton.mpr ⟨count, top⟩
  invoked := rfl

section TakeInto

variable {put : List Float → Float → Attempt (List Float)} {bound : Nat}
  (room : ∀ away x, away.length < bound → Carries (put away x) (.ok (away ++ [x])) [])

include room

/-- Where the stack holds as many values as are taken, and what they are put into has room for
them, only a tuple among them is in the way. What is put away is reversed. -/
theorem carries_takeInto (count : Nat) (stack : List Value) (away : List Float)
    (enough : count ≤ stack.length) (fits : away.length + count ≤ bound) :
    Carries (takeInto put count stack away)
      ((Machine.popScalars count stack).map fun (xs, rest) => (away ++ xs.1.reverse, rest)) [] := by
  induction count generalizing stack away with
  | zero =>
    have none : away ++ ([] : List Float).reverse = away := List.append_nil away
    simp only [Machine.popScalars, Except.map, none]
    exact Carries.done (away, stack)
  | succ count ih =>
    have some : stack ≠ [] := by
      rintro rfl
      simp at enough
    have taken := carries_take some
    cases popped : Machine.popScalar stack with
    | error e =>
      rw [popped] at taken
      simp only [Machine.popScalars, popped]
      exact taken.bind_error
    | ok first =>
      obtain ⟨x, rest⟩ := first
      rw [popped] at taken
      have shorter : stack.length = rest.length + 1 := by
        rw [Machine.eq_of_popScalar popped, List.length_cons]
      have others := ih rest (away ++ [x]) (by omega) (by simp; omega)
      refine taken.bind_ok ((room away x (by omega)).bind_ok ?_)
      cases below : Machine.popScalars count rest with
      | error e =>
        rw [below] at others
        simpa only [Machine.popScalars, popped, bind, Except.bind, below, Except.map] using others
      | ok result =>
        rw [below] at others
        have order : away ++ (result.1.1 ++ [x]).reverse = away ++ [x] ++ result.1.1.reverse := by
          simp
        simpa only [Machine.popScalars, popped, bind, Except.bind, below, Except.map, order]
          using others

end TakeInto

variable (m : Machine)

theorem carries_call (name : String) (arity : Nat) :
    Carries (call m name arity) (m.call name arity) (Builtin.ofName? name).toList := by
  unfold call Machine.call
  cases Builtin.ofName? name with
  | none => exact .refuse _
  | some f =>
    have fits := arity_le_capacity f
    simp only
    split
    · exact .refuse _
    by_cases more : f.arity < arity
    · rw [if_pos (.inl more), if_pos more]
      exact .refuse _
    rw [if_neg (by omega), if_neg more]
    split
    · exact .refuse _
    · rename_i fewer missing
      obtain rfl : arity = f.arity := by omega
      have taken := carries_takeInto
        (fun away x room => carries_store (.tooManyArguments name f.arity f.arity) room x)
        f.arity m.stack [] (by omega) (by simpa using fits)
      cases popped : Machine.popScalars f.arity m.stack with
      | error e =>
        rw [popped] at taken
        exact taken.bind_error
      | ok result =>
        obtain ⟨args, rest⟩ := result
        rw [popped] at taken
        refine taken.bind_ok ?_
        have order : ([] ++ args.1.reverse).reverse = args.1 := by simp
        have top : Machine.numbers args.1 <+: m.stack :=
          ⟨rest, (Machine.eq_of_popScalars popped).symm⟩
        simp only [order]
        exact (carries_invoke args.2 top m.generator).bind_pure

theorem carries_tuple (arity : Nat) : Carries (tuple m arity) (m.step (.tuple arity)) [] := by
  simp only [tuple, Machine.step]
  split
  · exact .refuse _
  · rename_i enough
    have taken := carries_takeInto
      (fun away x (_ : away.length < arity) => Carries.done (away ++ [x])) arity m.stack []
      (by omega) (by simp)
    refine (carries_reserve (by omega)).bind_ok ?_
    cases popped : Machine.popScalars arity m.stack with
    | error e =>
      rw [popped] at taken
      exact taken.bind_error
    | ok result =>
      obtain ⟨components, rest⟩ := result
      rw [popped] at taken
      have order : ([] ++ components.1.reverse).reverse = components.1 := by simp
      have packed := taken.bind_pure (f := fun (xs, rest) =>
        ({ m with stack := .tuple xs.reverse :: rest } : Machine))
      simp only [order] at packed
      exact packed

/-- The function that a token calls. -/
def called? : Token → Option Builtin
  | .call name _ => Builtin.ofName? name.text
  | _ => none

theorem carries_step (t : Token) : Carries (step m t) (m.step t) (called? t).toList := by
  cases t with
  | call name arity => exact carries_call m name.text arity
  | tuple arity => exact carries_tuple m arity
  | number x => exact .ofResult _
  | prefixOp c => exact .ofResult _
  | binaryOp c => exact .ofResult _
  | leftParen => exact .ofResult _
  | rightParen => exact .ofResult _
  | separator => exact .ofResult _

/-- The attempt ends as the other does and leaves the same, does nothing unsound, and invokes the
functions, also if it fails. -/
structure Follows {σ : Type} (x : Attempt α × σ) (r : Except Error α × σ) (fs : List Builtin) :
    Prop where
  outcome : x.1.outcome = r.1.mapError .refused
  left : x.2 = r.2
  sound : ∀ d ∈ x.1.deeds, d.Sound
  invoked : x.1.deeds.filterMap Deed.invoked? = fs

theorem run_follows (code : List Token) :
    Follows (run m code) (m.run code) ((m.carriedOut code).filterMap called?) := by
  induction code generalizing m with
  | nil => exact ⟨rfl, rfl, nofun, rfl⟩
  | cons t rest ih =>
    obtain ⟨outcome, sound, invoked⟩ := carries_step m t
    simp only [run, Machine.run_cons, Machine.carriedOut]
    cases attempt : step m t with
    | mk result deeds =>
      rw [attempt] at outcome sound invoked
      cases stepped : m.step t with
      | error e =>
        rw [stepped] at outcome invoked
        obtain rfl : result = .error (.refused e) := outcome
        exact ⟨rfl, rfl, sound, invoked⟩
      | ok next =>
        rw [stepped] at outcome invoked
        obtain rfl : result = .ok next := outcome
        have others := ih next
        refine ⟨others.outcome, others.left, fun d mem => ?_, ?_⟩
        · rcases List.mem_append.mp mem with mem | mem
          · exact sound d mem
          · exact others.sound d mem
        · have first : deeds.filterMap Deed.invoked? = (called? t).toList := invoked
          rw [List.filterMap_append, first, others.invoked]
          cases called : called? t with
          | none => rw [List.filterMap_cons_none called]; rfl
          | some f => rw [List.filterMap_cons_some called]; rfl

theorem evaluate_follows (code : List Token) (g : Random.Generator) :
    Follows (evaluate code g) (Code.evaluate code g) ((carriedOut code g).filterMap called?) := by
  have ran := run_follows ⟨[], g⟩ code
  unfold evaluate Code.evaluate
  split
  · rename_i empty
    subst empty
    exact ⟨rfl, rfl, nofun, rfl⟩
  · generalize run ⟨[], g⟩ code = x at ran ⊢
    generalize Machine.run ⟨[], g⟩ code = r at ran ⊢
    obtain ⟨⟨outcome, deeds⟩, m⟩ := x
    obtain ⟨result, n⟩ := r
    obtain ⟨ends, same, sound, invoked⟩ := ran
    obtain rfl : m = n := same
    cases result with
    | error e =>
      obtain rfl : outcome = .error (.refused e) := ends
      exact ⟨rfl, rfl, sound, invoked⟩
    | ok u =>
      obtain rfl : outcome = .ok u := ends
      have same : (⟨.ok u, deeds⟩ : Attempt Unit) >>= (fun _ => ofResult m.result) =
          ⟨m.result.mapError .refused, deeds ++ []⟩ := bind_of_ok rfl
      rw [List.append_nil] at same
      simp only [same]
      exact ⟨rfl, rfl, sound, invoked⟩

end Attempt

/-- Whatever the code, evaluation does not break down. All that is invoked are the functions of the
calls that are carried out, each with as many arguments as it has, from the top of the stack and in
the order they were put there; no buffer is full before, and neither a call nor a tuple asks for
more than the stack holds. -/
theorem evaluate_attempted (env : Environment) (code : List Token) :
    let x := (Attempt.evaluate code env.generator).1
    x.outcome ≠ .error .breakdown ∧ x.outcome = (env.evaluate code).1.mapError .refused ∧
      (Attempt.evaluate code env.generator).2 = (env.evaluate code).2.generator ∧
      (∀ d ∈ x.deeds, d.Sound) ∧
      x.deeds.filterMap Deed.invoked? =
        (carriedOut code env.generator).filterMap Attempt.called? := by
  obtain ⟨outcome, left, sound, invoked⟩ := Attempt.evaluate_follows code env.generator
  refine ⟨?_, outcome, left, sound, invoked⟩
  rw [outcome]
  cases (evaluate code env.generator).1 with
  | error e => nofun
  | ok xs => nofun

example (g : Random.Generator) :
    (Attempt.evaluate [.number 3, .number 1, .call Builtin.min.name 2] g).1.deeds =
      [.take [.scalar 1, .scalar 3], .store [], .take [.scalar 3], .store [1],
        .invoke .min [3, 1] [.scalar 1, .scalar 3]] := rfl

end Code

end Calculator
