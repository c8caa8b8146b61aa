import Mathlib

/-!
# Computations that may be interrupted

A long computation polls for interruption: now and then it asks whether it
should stop, remembers the answer in its state, and at some points gives up,
returning whatever it has. What it returns is then worthless, but it must
still return, and the data it owns must keep their shape.

The computations are those of the monad `StateT σ Option`, where `none` is a
failure (an access out of range, a broken assertion). A predicate `Live` on
the states says that no interruption has been noticed so far.

* `Completes Live m A W` is total correctness for all states: `m` returns, its
  result satisfies `A` in any case, and `W` if the computation was never
  interrupted. As `Live` at the end implies `Live` at the beginning, the rule
  for sequences `Completes.bind` hands the second part only what is known in
  any case, and the rest as a hypothesis of what it has to show when live.
* `Yields Live m A` is the special case of a computation whose result does not
  depend on interruptions.
-/

namespace Interruption

variable {σ α β : Type} {Live : σ → Prop}

/-- **Total correctness under interruption**: the computation returns from
every state, with `always` of the result in any case, and with `whenLive` if
it is not interrupted before it ends. -/
def Completes (Live : σ → Prop) (m : StateT σ Option α) (always whenLive : α → Prop) : Prop :=
  ∀ s, ∃ a s', m.run s = some (a, s') ∧ always a ∧ (Live s' → Live s ∧ whenLive a)

/-- The computation returns from every state with a result as described,
interrupted or not. -/
def Yields (Live : σ → Prop) (m : StateT σ Option α) (always : α → Prop) : Prop :=
  Completes Live m always (fun _ => True)

variable {a : α}

theorem Completes.pure {A W : α → Prop} (hA : A a) (hW : W a) : Completes Live (Pure.pure a) A W :=
  fun s => ⟨a, s, rfl, hA, fun h => ⟨h, hW⟩⟩

variable {m : StateT σ Option α}

theorem Completes.mono {A A' W W' : α → Prop}
    (h : Completes Live m A W) (hA : ∀ a, A a → A' a) (hW : ∀ a, A a → W a → W' a) :
    Completes Live m A' W' := by
  intro s
  obtain ⟨a, s', hrun, ha, hl⟩ := h s
  exact ⟨a, s', hrun, hA a ha, fun hs => ⟨(hl hs).1, hW a ha (hl hs).2⟩⟩

variable {f : α → StateT σ Option β} {A' W' : β → Prop}

/-- **The rule for sequences.** The second part starts from what the first one
guarantees in any case; what the first one guarantees when live is a
hypothesis of what the second one has to guarantee when live. -/
theorem Completes.bind {A W : α → Prop} (hm : Completes Live m A W)
    (hf : ∀ a, A a → Completes Live (f a) A' (fun b => W a → W' b)) :
    Completes Live (m >>= f) A' W' := by
  intro s
  obtain ⟨a, s₁, hrun, ha, hl⟩ := hm s
  obtain ⟨b, s₂, hrun', hb, hl'⟩ := hf a ha s₁
  refine ⟨b, s₂, ?_, hb, fun hs => ?_⟩
  · rw [StateT.run_bind, hrun]
    exact hrun'
  · obtain ⟨hs₁, hW⟩ := hl' hs
    exact ⟨(hl hs₁).1, hW (hl hs₁).2⟩

variable {o : Option α}

/-- The rule for sequences whose first step does not touch the state. -/
theorem Completes.lift_bind {A W : β → Prop} (ho : o = some a) (hf : Completes Live (f a) A W) :
    Completes Live (liftM o >>= f) A W := by
  subst ho
  exact hf

variable {A : α → Prop}

theorem Completes.yields_bind (hm : Yields Live m A)
    (hf : ∀ a, A a → Completes Live (f a) A' W') : Completes Live (m >>= f) A' W' :=
  Completes.bind hm (fun a ha => (hf a ha).mono (fun _ h => h) (fun _ _ h _ => h))

theorem Yields.pure (hA : A a) : Yields Live (Pure.pure a) A :=
  Completes.pure hA trivial

theorem Yields.mono {A A' : α → Prop} (h : Yields Live m A)
    (hA : ∀ a, A a → A' a) : Yields Live m A' :=
  Completes.mono h hA (fun _ _ h => h)

theorem Yields.bind {A' : β → Prop} (hm : Yields Live m A) (hf : ∀ a, A a → Yields Live (f a) A') :
    Yields Live (m >>= f) A' :=
  Completes.yields_bind hm hf

theorem Yields.lift_bind {A : β → Prop}
    (ho : o = some a) (hf : Yields Live (f a) A) : Yields Live (liftM o >>= f) A :=
  Completes.lift_bind ho hf

end Interruption
