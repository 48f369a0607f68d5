import Mathlib.Logic.Relation

/-!
# Programs that share a state through atomic actions

A `Program` is what one party does: it performs atomic actions on a shared
state, one after the other, and each answer decides how it goes on.  A
`Machine` says what an action can do to the state, when it crashes the party
that performs it, and what the rest of the world may do in between.

`Run` is one program among an arbitrary environment, `Pool` any number of
programs at once.  `Ensures` is the weakest precondition of a program against
the answers it may get; `Run.ensures` turns it into a statement about runs.
-/

namespace FfmucSalt

/-- Atomic actions, each followed by what depends on its answer. -/
inductive Program (Action : Type) (Answer : Action → Type) (α : Type) where
  | done (result : α)
  | call (action : Action)
      (next : Answer action → Program Action Answer α)

namespace Program

variable {Action : Type} {Answer : Action → Type} {α β σ event : Type}

protected def bind : Program Action Answer α →
    (α → Program Action Answer β) → Program Action Answer β
  | .done result, continuation => continuation result
  | .call action next, continuation =>
      .call action fun answer => (next answer).bind continuation

instance : Monad (Program Action Answer) where
  pure := .done
  bind := Program.bind

/-- A single action. -/
def perform (action : Action) : Program Action Answer (Answer action) :=
  .call action .done

@[simp] theorem pure_eq (result : α) :
    (pure result : Program Action Answer α) = .done result :=
  rfl

@[simp] theorem done_bind (result : α)
    (continuation : α → Program Action Answer β) :
    (Program.done result >>= continuation) = continuation result :=
  rfl

@[simp] theorem call_bind (action : Action)
    (next : Answer action → Program Action Answer α)
    (continuation : α → Program Action Answer β) :
    (Program.call action next >>= continuation) =
      .call action fun answer => next answer >>= continuation :=
  rfl

@[simp] theorem perform_bind (action : Action)
    (continuation : Answer action → Program Action Answer β) :
    (perform action >>= continuation) = .call action continuation :=
  rfl

/-! ## Weakest preconditions -/

/-- Every action the program performs satisfies `requires`, and against
answers that `permits` allows it ends in a result satisfying `post`. -/
inductive Ensures (requires : Action → Prop)
    (permits : (action : Action) → Answer action → Prop) (post : α → Prop) :
    Program Action Answer α → Prop where
  | done {result : α} (holds : post result) :
      Ensures requires permits post (.done result)
  | call {action : Action} {next : Answer action → Program Action Answer α}
      (required : requires action)
      (rest : ∀ answer, permits action answer →
        Ensures requires permits post (next answer)) :
      Ensures requires permits post (.call action next)

section Ensures

variable {requires : Action → Prop}
variable {permits : (action : Action) → Answer action → Prop}

/-- The rule of a result. -/
theorem Ensures.pure {post : α → Prop} {result : α} (holds : post result) :
    Ensures requires permits post (pure result : Program Action Answer α) :=
  .done holds

/-- The rule of an action. -/
theorem Ensures.action {action : Action} {post : α → Prop}
    {continuation : Answer action → Program Action Answer α}
    (required : requires action)
    (rest : ∀ answer, permits action answer →
      Ensures requires permits post (continuation answer)) :
    Ensures requires permits post (Program.perform action >>= continuation) :=
  .call required rest

/-- The rule of choice. -/
theorem Ensures.ite {condition : Prop} [Decidable condition] {post : α → Prop}
    {yes no : Program Action Answer α}
    (left : condition → Ensures requires permits post yes)
    (right : ¬ condition → Ensures requires permits post no) :
    Ensures requires permits post (if condition then yes else no) := by
  split
  · exact left ‹_›
  · exact right ‹_›

/-- The rule of consequence. -/
theorem Ensures.mono {post weaker : α → Prop}
    {program : Program Action Answer α}
    (ensures : Ensures requires permits post program)
    (implies : ∀ result, post result → weaker result) :
    Ensures requires permits weaker program := by
  induction ensures with
  | done holds => exact .done (implies _ holds)
  | call required _ induction => exact .call required induction

/-- The rule of conjunction. -/
theorem Ensures.and {post other : α → Prop} {program : Program Action Answer α}
    (first : Ensures requires permits post program)
    (second : Ensures requires permits other program) :
    Ensures requires permits (fun result => post result ∧ other result)
      program := by
  induction first with
  | done holds =>
      cases second with
      | done also => exact .done ⟨holds, also⟩
  | call required _ induction =>
      cases second with
      | call _ rest =>
          exact .call required fun answer permitted =>
            induction answer permitted (rest answer permitted)

/-- A program that always gets a permitted answer comes to a result. -/
theorem Ensures.exists_result {post : α → Prop}
    {program : Program Action Answer α}
    (ensures : Ensures requires permits post program)
    (answers : (action : Action) → Answer action)
    (permitted : ∀ action, permits action (answers action)) :
    ∃ result, post result := by
  induction ensures with
  | done holds => exact ⟨_, holds⟩
  | call _ _ induction => exact induction _ (permitted _)

/-- The rule of composition. -/
theorem Ensures.bind (middle : α → Prop) {post : β → Prop}
    {program : Program Action Answer α}
    {continuation : α → Program Action Answer β}
    (first : Ensures requires permits middle program)
    (second : ∀ result, middle result →
      Ensures requires permits post (continuation result)) :
    Ensures requires permits post (program >>= continuation) := by
  induction first with
  | done holds => exact second _ holds
  | call required _ induction => exact .call required induction

end Ensures

/-! ## What the last answer allows -/

/-- Every action of the program is one that the answer before it allows: an
answer leaves some knowledge, and only the next action may rely on it. -/
inductive Heeds {κ : Type} (allows : κ → Action → Prop)
    (teaches : (action : Action) → Answer action → κ) :
    κ → Program Action Answer α → Prop where
  | done {known : κ} {result : α} : Heeds allows teaches known (.done result)
  | call {known : κ} {action : Action}
      {next : Answer action → Program Action Answer α}
      (allowed : allows known action)
      (rest : ∀ answer, Heeds allows teaches (teaches action answer)
        (next answer)) :
      Heeds allows teaches known (.call action next)

section Heeds

variable {κ : Type} {allows : κ → Action → Prop}
variable {teaches : (action : Action) → Answer action → κ}

theorem Heeds.pure {known : κ} {result : α} :
    Heeds allows teaches known (pure result : Program Action Answer α) :=
  .done

theorem Heeds.action {known : κ} {action : Action}
    {continuation : Answer action → Program Action Answer α}
    (allowed : allows known action)
    (rest : ∀ answer, Heeds allows teaches (teaches action answer)
      (continuation answer)) :
    Heeds allows teaches known (perform action >>= continuation) :=
  .call allowed rest

theorem Heeds.ite {known : κ} {condition : Prop} [Decidable condition]
    {yes no : Program Action Answer α}
    (left : condition → Heeds allows teaches known yes)
    (right : ¬ condition → Heeds allows teaches known no) :
    Heeds allows teaches known (if condition then yes else no) := by
  split
  · exact left ‹_›
  · exact right ‹_›

/-- What follows a program cannot rely on what the program learned. -/
theorem Heeds.bind {known : κ} {program : Program Action Answer α}
    {continuation : α → Program Action Answer β}
    (first : Heeds allows teaches known program)
    (second : ∀ known result, Heeds allows teaches known (continuation result)) :
    Heeds allows teaches known (program >>= continuation) := by
  induction first with
  | done => exact second _ _
  | call allowed _ induction => exact .call allowed induction

end Heeds

end Program

/-- What actions and the environment can do to a shared state. -/
structure Machine (Action : Type) (Answer : Action → Type) (event σ : Type)
    where
  performs : σ → (action : Action) → Answer action → σ → Prop
  /-- The action crashes its party and leaves this state behind. -/
  crashes : σ → Action → σ → Prop
  environment : σ → event → σ → Prop

/-- The machine whose environment leads to the allowed states only. -/
def Machine.within {Action : Type} {Answer : Action → Type} {event σ : Type}
    (machine : Machine Action Answer event σ) (allowed : σ → Prop) :
    Machine Action Answer event σ :=
  { machine with
    environment := fun state what later =>
      machine.environment state what later ∧ allowed later }

/-- The machine without its environment. -/
def Machine.alone {Action : Type} {Answer : Action → Type} {event σ : Type}
    (machine : Machine Action Answer event σ) :
    Machine Action Answer event σ :=
  { machine with environment := fun _ _ _ => False }

namespace Program

variable {Action : Type} {Answer : Action → Type} {α β σ event : Type}
variable {machine : Machine Action Answer event σ}

/-- A program runs to its end while the environment does what it likes between
any two of its actions. -/
inductive Run (machine : Machine Action Answer event σ) :
    Program Action Answer α → σ → α → σ → Prop where
  | done {result : α} {state : σ} : Run machine (.done result) state result state
  | call {action : Action} {next : Answer action → Program Action Answer α}
      {state middle final : σ} {answer : Answer action} {result : α}
      (performs : machine.performs state action answer middle)
      (rest : Run machine (next answer) middle result final) :
      Run machine (.call action next) state result final
  | environment {program : Program Action Answer α}
      {state middle final : σ} {what : event} {result : α}
      (acts : machine.environment state what middle)
      (rest : Run machine program middle result final) :
      Run machine program state result final

/-- A run keeps every invariant that actions and environment keep, and the
answers it sees are those the invariant permits. -/
theorem Run.ensures (invariant : σ → Prop) {requires : Action → Prop}
    {permits : (action : Action) → Answer action → Prop} {post : α → Prop}
    (performs : ∀ {state action answer later}, invariant state →
      requires action → machine.performs state action answer later →
      permits action answer ∧ invariant later)
    (environment : ∀ {state what later}, invariant state →
      machine.environment state what later → invariant later)
    {program : Program Action Answer α} {state final : σ} {result : α}
    (run : Run machine program state result final)
    (ensures : Ensures requires permits post program)
    (start : invariant state) : post result ∧ invariant final := by
  induction run with
  | done =>
      cases ensures with
      | done holds => exact ⟨holds, start⟩
  | call acts _ induction =>
      cases ensures with
      | call required rest =>
          obtain ⟨permitted, kept⟩ := performs start required acts
          exact induction (rest _ permitted) kept
  | environment acts _ induction =>
      exact induction ensures (environment start acts)

/-- A program performs an action that leads from one state to another, at any
moment of a run, whether or not the run ends. -/
inductive Acts (machine : Machine Action Answer event σ) :
    Program Action Answer α → σ → σ → σ → Prop where
  | here {action : Action} {next : Answer action → Program Action Answer α}
      {state later : σ} {answer : Answer action}
      (performs : machine.performs state action answer later) :
      Acts machine (.call action next) state state later
  | call {action : Action} {next : Answer action → Program Action Answer α}
      {state middle before after : σ} {answer : Answer action}
      (performs : machine.performs state action answer middle)
      (rest : Acts machine (next answer) middle before after) :
      Acts machine (.call action next) state before after
  | environment {program : Program Action Answer α}
      {state middle before after : σ} {what : event}
      (acts : machine.environment state what middle)
      (rest : Acts machine program middle before after) :
      Acts machine program state before after

/-- What every required action does to the state, every action of a program
does. -/
theorem Acts.ensures (invariant : σ → Prop) (changes : σ → σ → Prop)
    {requires : Action → Prop}
    {permits : (action : Action) → Answer action → Prop} {post : α → Prop}
    (performs : ∀ {state action answer later}, invariant state →
      requires action → machine.performs state action answer later →
      (permits action answer ∧ invariant later) ∧ changes state later)
    (environment : ∀ {state what later}, invariant state →
      machine.environment state what later → invariant later)
    {program : Program Action Answer α} {state before after : σ}
    (acts : Acts machine program state before after)
    (ensures : Ensures requires permits post program)
    (start : invariant state) : changes before after := by
  induction acts with
  | here first =>
      cases ensures with
      | call required _ => exact (performs start required first).2
  | call first _ induction =>
      cases ensures with
      | call required rest =>
          obtain ⟨⟨permitted, kept⟩, -⟩ := performs start required first
          exact induction (rest _ permitted) kept
  | environment first _ induction =>
      exact induction ensures (environment start first)

section Alone

variable {program : Program Action Answer α}
variable {action : Action} {next : Answer action → Program Action Answer α}
variable {state final : σ} {result : α}

@[simp] theorem run_alone_done {answer : α} :
    Run machine.alone (.done answer) state result final ↔
      result = answer ∧ final = state := by
  constructor
  · intro run
    cases run with
    | done => exact ⟨rfl, rfl⟩
    | environment acts => exact acts.elim
  · rintro ⟨rfl, rfl⟩
    exact .done

@[simp] theorem run_alone_call :
    Run machine.alone (.call action next) state result final ↔
      ∃ answer middle, machine.performs state action answer middle ∧
        Run machine.alone (next answer) middle result final := by
  constructor
  · intro run
    cases run with
    | call performs rest => exact ⟨_, _, performs, rest⟩
    | environment acts => exact acts.elim
  · rintro ⟨answer, middle, performs, rest⟩
    exact .call performs rest

theorem Run.of_alone {program : Program Action Answer α}
    (run : Run machine.alone program state result final) :
    Run machine program state result final := by
  induction run with
  | done => exact .done
  | call performs _ induction => exact .call performs induction
  | environment acts => exact acts.elim

theorem run_alone_bind {program : Program Action Answer β}
    {continuation : β → Program Action Answer α} :
    Run machine.alone (program >>= continuation) state result final ↔
      ∃ answer middle, Run machine.alone program state answer middle ∧
        Run machine.alone (continuation answer) middle result final := by
  induction program generalizing state with
  | done answer => simp [and_assoc]
  | call action next induction =>
      simp only [call_bind, run_alone_call, induction]
      constructor
      · rintro ⟨answer, first, performs, value, second, run, rest⟩
        exact ⟨value, second, ⟨answer, first, performs, run⟩, rest⟩
      · rintro ⟨value, second, ⟨answer, first, performs, run⟩, rest⟩
        exact ⟨answer, first, performs, value, second, run, rest⟩

end Alone

/-! ## States on the way -/

/-- A program that runs alone passes through a state: it may have performed any
of its first actions, none or all. -/
inductive Passes (machine : Machine Action Answer event σ) :
    Program Action Answer α → σ → σ → Prop where
  | here {program : Program Action Answer α} {state : σ} :
      Passes machine program state state
  | call {action : Action} {next : Answer action → Program Action Answer α}
      {state middle final : σ} {answer : Answer action}
      (performs : machine.performs state action answer middle)
      (rest : Passes machine (next answer) middle final) :
      Passes machine (.call action next) state final

/-- A program that starts in the state passes through states satisfying
`always` only, and ends as `post` says. -/
inductive Upholds (machine : Machine Action Answer event σ) (always : σ → Prop)
    (post : α → σ → Prop) : Program Action Answer α → σ → Prop where
  | done {result : α} {state : σ} (now : always state)
      (holds : post result state) :
      Upholds machine always post (.done result) state
  | call {action : Action} {next : Answer action → Program Action Answer α}
      {state : σ} (now : always state)
      (rest : ∀ answer later, machine.performs state action answer later →
        Upholds machine always post (next answer) later) :
      Upholds machine always post (.call action next) state

section Upholds

variable {always : σ → Prop} {post : α → σ → Prop}
variable {program : Program Action Answer α} {state final : σ} {result : α}

/-- The rule of a result. -/
theorem Upholds.pure (now : always state) (holds : post result state) :
    Upholds machine always post
      (pure result : Program Action Answer α) state :=
  .done now holds

/-- The rule of an action. -/
theorem Upholds.action {action : Action}
    {continuation : Answer action → Program Action Answer α}
    (now : always state)
    (rest : ∀ answer later, machine.performs state action answer later →
      Upholds machine always post (continuation answer) later) :
    Upholds machine always post (perform action >>= continuation) state :=
  .call now rest

/-- The rule of composition. -/
theorem Upholds.bind (middle : β → σ → Prop)
    {program : Program Action Answer β}
    {continuation : β → Program Action Answer α}
    (first : Upholds machine always middle program state)
    (second : ∀ result later, middle result later →
      Upholds machine always post (continuation result) later) :
    Upholds machine always post (program >>= continuation) state := by
  induction first with
  | done _ holds => exact second _ _ holds
  | call now _ induction => exact .call now induction

theorem Upholds.passes (upholds : Upholds machine always post program state)
    (passes : Passes machine program state final) : always final := by
  induction passes with
  | here =>
      cases upholds with
      | done now _ => exact now
      | call now _ => exact now
  | call performs _ induction =>
      cases upholds with
      | call _ rest => exact induction (rest _ _ performs)

theorem Upholds.run (upholds : Upholds machine always post program state)
    (run : Run machine.alone program state result final) :
    post result final := by
  induction run with
  | done =>
      cases upholds with
      | done _ holds => exact holds
  | call performs _ induction =>
      cases upholds with
      | call _ rest => exact induction (rest _ _ performs)
  | environment acts _ _ => exact acts.elim

end Upholds

end Program

/-! ## Any number of programs -/

/-- A shared state and the programs that are under way. -/
structure Pool (Action : Type) (Answer : Action → Type) (α σ : Type) where
  state : σ
  threads : List (Program Action Answer α)

namespace Pool

variable {Action : Type} {Answer : Action → Type} {α σ event : Type}

/-- What a step of a pool is about. -/
inductive Event (Action : Type) (Answer : Action → Type) (α event : Type) where
  | arrives (program : Program Action Answer α)
  | acts (thread : Nat)
  | crashes (thread : Nat)
  | environment (what : event)

/-- One atomic step of one party. -/
inductive Step (machine : Machine Action Answer event σ) :
    Pool Action Answer α σ → Event Action Answer α event →
      Pool Action Answer α σ → Prop where
  | arrives {pool : Pool Action Answer α σ}
      (program : Program Action Answer α) :
      Step machine pool (.arrives program)
        { pool with threads := pool.threads ++ [program] }
  | acts {pool : Pool Action Answer α σ} {thread : Nat} {action : Action}
      {next : Answer action → Program Action Answer α}
      {answer : Answer action} {later : σ}
      (atAction : pool.threads[thread]? = some (.call action next))
      (performs : machine.performs pool.state action answer later) :
      Step machine pool (.acts thread)
        { state := later
          threads := pool.threads.set thread (next answer) }
  | crashes {pool : Pool Action Answer α σ} {thread : Nat} {action : Action}
      {next : Answer action → Program Action Answer α} {later : σ}
      (atAction : pool.threads[thread]? = some (.call action next))
      (crashes : machine.crashes pool.state action later) :
      Step machine pool (.crashes thread)
        { state := later
          threads := pool.threads.eraseIdx thread }
  | environment {pool : Pool Action Answer α σ} {what : event} {later : σ}
      (acts : machine.environment pool.state what later) :
      Step machine pool (.environment what) { pool with state := later }

/-- Runs all of whose steps satisfy a condition on the pool before the step
and on what the step is about. -/
def RunUnder (machine : Machine Action Answer event σ)
    (condition : Pool Action Answer α σ → Event Action Answer α event → Prop) :
    Pool Action Answer α σ → Pool Action Answer α σ → Prop :=
  Relation.ReflTransGen fun pool later =>
    ∃ what, condition pool what ∧ Step machine pool what later

/-- What every conforming step keeps, every conforming run keeps. -/
theorem RunUnder.invariant {machine : Machine Action Answer event σ}
    {condition : Pool Action Answer α σ → Event Action Answer α event → Prop}
    {invariant : Pool Action Answer α σ → Prop}
    (keeps : ∀ {pool what later}, invariant pool → condition pool what →
      Step machine pool what later → invariant later)
    {pool later : Pool Action Answer α σ}
    (run : RunUnder machine condition pool later) (start : invariant pool) :
    invariant later := by
  induction run with
  | refl => exact start
  | tail _ step induction =>
      obtain ⟨what, allowed, step⟩ := step
      exact keeps induction allowed step

end Pool

end FfmucSalt
