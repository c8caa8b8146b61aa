import Mathlib

/-!
# Writers and readers in lockstep

A serializer and its deserializer rarely agree by a function inverse: the
writer may still patch the last byte it has emitted, and the reader may
have fetched a byte of which it has consumed a part only. What holds
between them is a *simulation*, relative to the final output `o` of the
writer:

* `Extends w o` – the output `o` may still come out of the writer state
  `w`, which is to say that everything `w` has settled stands in `o`;
* `Matched w o r` – the reader state `r`, reading `o`, has consumed
  exactly what the writer state `w` had produced.

A write action and a read action *correspond* at a value `a` when the read
returns `a` and moves the reader along the write. Correspondence composes,
so that a format is verified one primitive at a time.
-/

/-- The two relations a writer with states `W` and a reader with states
`R` are compared by, over outputs `O`. -/
structure Lockstep (W R O : Type) where
  /-- The output may still come out of the writer state. -/
  Extends : W → O → Prop
  /-- The reader has consumed what the writer had produced. -/
  Matched : W → O → R → Prop

namespace Lockstep

variable {W R O α β : Type} (L : Lockstep W R O)

/-- **A write action and a read action correspond at `a`**: what the write
settles was open before it, and the read returns `a` and keeps pace. -/
structure Corresponds (write : W → W) (read : StateT R Option α) (a : α) : Prop where
  /-- An output of the later writer state is one of the earlier state. -/
  extends_of : ∀ {w o}, L.Extends (write w) o → L.Extends w o
  /-- The read returns `a` and keeps pace with the write. -/
  read_eq : ∀ {w o r}, L.Extends (write w) o → L.Matched w o r →
    ∃ r', read.run r = some (a, r') ∧ L.Matched (write w) o r'

variable {L}

/-- Nothing written corresponds to nothing read. -/
theorem Corresponds.pure (a : α) : L.Corresponds id (Pure.pure a) a :=
  ⟨fun h => h, fun {_ _ r} _ hm => ⟨r, rfl, hm⟩⟩

/-- **Correspondence composes**: the second read may depend on the value
the first one returned. -/
theorem Corresponds.bind {f g : W → W} {p : StateT R Option α}
    {q : α → StateT R Option β} {a : α} {b : β}
    (h₁ : L.Corresponds f p a) (h₂ : L.Corresponds g (q a) b) :
    L.Corresponds (fun w => g (f w)) (p >>= q) b := by
  refine ⟨fun h => h₁.extends_of (h₂.extends_of h), fun {w o r} h hm => ?_⟩
  obtain ⟨r₁, hr₁, hm₁⟩ := h₁.read_eq (h₂.extends_of h) hm
  obtain ⟨r₂, hr₂, hm₂⟩ := h₂.read_eq h hm₁
  refine ⟨r₂, ?_, hm₂⟩
  rw [StateT.run_bind, hr₁]
  exact hr₂

/-- A corresponding read followed by a computation that reads nothing. -/
theorem Corresponds.bind_pure {write : W → W} {read : StateT R Option α}
    {f : α → StateT R Option β} {a : α} {b : β}
    (h : L.Corresponds write read a) (hf : f a = Pure.pure b) :
    L.Corresponds write (read >>= f) b :=
  h.bind (hf ▸ Corresponds.pure b)

/-- A check on the reader's side that the lockstep guarantees to pass. -/
theorem Corresponds.guarded {write : W → W} {read : StateT R Option α} {a : α}
    {check : StateT R Option Unit}
    (hc : ∀ {w o r}, L.Extends (write w) o → L.Matched w o r → check.run r = some ((), r))
    (h : L.Corresponds write read a) :
    L.Corresponds write (check >>= fun _ => read) a := by
  refine ⟨h.extends_of, fun {w o r} hw hm => ?_⟩
  obtain ⟨r', hr, hm'⟩ := h.read_eq hw hm
  refine ⟨r', ?_, hm'⟩
  rw [StateT.run_bind, hc hw hm]
  exact hr

end Lockstep
