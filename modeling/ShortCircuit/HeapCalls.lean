import Mathlib

set_option autoImplicit false

/-!
# Computations that allocate

A computation of `HeapM` ends with a fault, or with a result and the calls of `malloc`
and `free` that it made on the way. A block is named by what it is for and a pointer is
a block or null. `Ensures` is partial correctness with the calls in the postcondition,
and `result` forgets the calls.
-/
namespace ShortCircuit.HeapCalls

inductive HeapCall (κ : Type) where
  | malloc (block : κ)
  | free (ptr : Option κ)
  deriving DecidableEq, Repr

def HeapM (κ ε α : Type) : Type := Except ε (α × List (HeapCall κ))

section Monad

variable {κ ε α β : Type}

def HeapM.pure (a : α) : HeapM κ ε α := Except.ok (a, [])

def HeapM.bind (x : HeapM κ ε α) (f : α → HeapM κ ε β) : HeapM κ ε β :=
  match x with
  | .error fault => .error fault
  | .ok (a, calls) =>
    match f a with
    | .error fault => .error fault
    | .ok (b, more) => .ok (b, calls ++ more)

instance : Monad (HeapM κ ε) where
  pure := HeapM.pure
  bind := HeapM.bind

/-- A computation that does not allocate. -/
def HeapM.lift (x : Except ε α) : HeapM κ ε α := x.map fun a => (a, [])

instance : MonadLift (Except ε) (HeapM κ ε) where
  monadLift := HeapM.lift

def HeapM.result (x : HeapM κ ε α) : Except ε α := Except.map Prod.fst x

/-- One call of `malloc`, with its answer. -/
def malloc (ok : Bool) (block : κ) : HeapM κ ε (Option κ) :=
  Except.ok (if ok then (some block, [.malloc block]) else (none, []))

def free (ptr : Option κ) : HeapM κ ε Unit := Except.ok ((), [.free ptr])

/-- Read or write through a pointer. -/
def follow (fault : ε) (ptr : Option α) : HeapM κ ε Unit :=
  if ptr.isSome then HeapM.pure () else Except.error fault

end Monad

section Results

variable {κ ε α β : Type}

theorem result_bind (x : HeapM κ ε α) (f : α → HeapM κ ε β) :
    (x >>= f).result = x.result >>= fun a => (f a).result := by
  cases x with
  | error fault => rfl
  | ok p =>
    obtain ⟨a, calls⟩ := p
    change (HeapM.bind (.ok (a, calls)) f).result = (f a).result
    simp only [HeapM.bind]
    cases f a <;> rfl

theorem lift_bind_ok (a : α) (f : α → HeapM κ ε β) :
    ((liftM (Except.ok a : Except ε α) : HeapM κ ε α) >>= f) = f a := by
  change HeapM.bind (.ok (a, [])) f = f a
  simp only [HeapM.bind]
  cases f a <;> rfl

theorem result_malloc_bind (ok : Bool) (block : κ) (f : Option κ → HeapM κ ε β) :
    (malloc ok block >>= f).result = (f (if ok then some block else none)).result := by
  rw [result_bind]
  cases ok <;> rfl

theorem follow_bind (fault : ε) (a : α) (f : Unit → HeapM κ ε β) :
    (follow fault (some a) >>= f) = f () := lift_bind_ok () f

end Results

section Rules

variable {κ ε α β : Type} {post : α → List (HeapCall κ) → Prop}

/-- Every result of the computation, with its calls, satisfies the postcondition. -/
def Ensures (x : HeapM κ ε α) (post : α → List (HeapCall κ) → Prop) : Prop :=
  ∀ a calls, x = .ok (a, calls) → post a calls

theorem ensures_pure {a : α} (h : post a []) : Ensures (pure a : HeapM κ ε α) post := by
  intro b calls hx
  obtain ⟨rfl, rfl⟩ := Prod.mk.inj (Except.ok.inj hx)
  exact h

theorem ensures_bind {x : HeapM κ ε β} {f : β → HeapM κ ε α}
    (h : Ensures x fun b calls => Ensures (f b) fun a more => post a (calls ++ more)) :
    Ensures (x >>= f) post := by
  intro a calls hx
  change HeapM.bind x f = _ at hx
  cases x with
  | error fault => cases hx
  | ok p =>
    obtain ⟨b, first⟩ := p
    simp only [HeapM.bind] at hx
    cases hf : f b with
    | error fault =>
      rw [hf] at hx
      cases hx
    | ok q =>
      obtain ⟨c, more⟩ := q
      rw [hf] at hx
      obtain ⟨rfl, rfl⟩ := Prod.mk.inj (Except.ok.inj hx)
      exact h b first rfl c more hf

theorem ensures_lift {x : Except ε α} (h : ∀ a, x = .ok a → post a []) :
    Ensures (liftM x : HeapM κ ε α) post := by
  intro a calls hx
  cases x with
  | error fault => cases hx
  | ok b =>
    obtain ⟨rfl, rfl⟩ := Prod.mk.inj (Except.ok.inj hx)
    exact h b rfl

theorem ensures_free {ptr : Option κ} {post : Unit → List (HeapCall κ) → Prop}
    (h : post () [.free ptr]) : Ensures (free ptr : HeapM κ ε Unit) post := by
  intro a calls hx
  obtain ⟨rfl, rfl⟩ := Prod.mk.inj (Except.ok.inj hx)
  exact h

theorem ensures_malloc {ok : Bool} {block : κ} {post : Option κ → List (HeapCall κ) → Prop}
    (hok : ok = true → post (some block) [.malloc block]) (hnull : ok = false → post none []) :
    Ensures (malloc ok block : HeapM κ ε (Option κ)) post := by
  intro ptr calls hx
  cases ok with
  | false =>
    obtain ⟨rfl, rfl⟩ := Prod.mk.inj (Except.ok.inj hx)
    exact hnull rfl
  | true =>
    obtain ⟨rfl, rfl⟩ := Prod.mk.inj (Except.ok.inj hx)
    exact hok rfl

theorem ensures_ite {c : Prop} [Decidable c] {x y : HeapM κ ε α} (ht : c → Ensures x post)
    (hf : ¬ c → Ensures y post) : Ensures (if c then x else y) post := by
  split
  · exact ht ‹_›
  · exact hf ‹_›

theorem Ensures.mono {x : HeapM κ ε α} {weaker : α → List (HeapCall κ) → Prop}
    (h : Ensures x post) (himp : ∀ a calls, post a calls → weaker a calls) : Ensures x weaker :=
  fun a calls hx => himp a calls (h a calls hx)

end Rules

section Held

variable {κ : Type} [DecidableEq κ]

/-- The blocks in use after one more call; `free` does nothing with a null pointer. -/
def afterCall (blocks : List κ) : HeapCall κ → List κ
  | .malloc block => block :: blocks
  | .free none => blocks
  | .free (some block) => blocks.erase block

/-- The blocks that were obtained and not released. -/
def held (calls : List (HeapCall κ)) : List κ := calls.foldl afterCall []

end Held

end ShortCircuit.HeapCalls
