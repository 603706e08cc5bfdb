import Mathlib.Logic.Basic

/-! Computations on a machine state that may halt. `EStateM ε σ` keeps the state
in which the machine halts, so that a failed assertion can be told from a state
that was left unchanged. The rules below run such a computation one operation at
a time, and take a returning one apart again. -/

namespace JustKernel.Halting

variable {ε σ α β : Type} {x : EStateM ε σ α} {f : α → EStateM ε σ β} {s t : σ} {a : α} {b : β} {e : ε}

/-- The state a computation ends in, whether it returns or halts. -/
def finalState : EStateM.Result ε σ α → σ
  | .ok _ s => s
  | .error _ s => s

/-- The result of a computation that returns. -/
def returned : EStateM.Result ε σ α → Option α
  | .ok a _ => some a
  | .error _ _ => none

theorem ok_of_returned {r : EStateM.Result ε σ α} (h : returned r = some a) : r = .ok a (finalState r) := by
  cases r with
  | ok b t => cases h; rfl
  | error e t => cases h

/-- What a computation halts with. -/
def halted : EStateM.Result ε σ α → Option ε
  | .ok _ _ => none
  | .error e _ => some e

theorem error_of_halted {r : EStateM.Result ε σ α} (h : halted r = some e) : r = .error e (finalState r) := by
  cases r with
  | ok b t => cases h
  | error e t => cases h; rfl

theorem bind_of_ok (h : x s = .ok a t) : (x >>= f) s = f a t := by
  simp [bind, EStateM.bind, h]

theorem bind_of_error (h : x s = .error e t) : (x >>= f) s = .error e t := by
  simp [bind, EStateM.bind, h]

theorem bind_eq_ok {u : σ} :
    (x >>= f) s = .ok b u ↔ ∃ a t, x s = .ok a t ∧ f a t = .ok b u := by
  cases h : x s with
  | ok a t =>
    rw [bind_of_ok h]
    exact ⟨fun hf => ⟨a, t, rfl, hf⟩, fun ⟨_, _, hx, hf⟩ => by cases hx; exact hf⟩
  | error e t => simp [bind_of_error h]

theorem bind_eq_error {u : σ} :
    (x >>= f) s = .error e u ↔ x s = .error e u ∨ ∃ a t, x s = .ok a t ∧ f a t = .error e u := by
  cases h : x s with
  | ok a t =>
    rw [bind_of_ok h]
    constructor
    · exact fun hf => Or.inr ⟨a, t, rfl, hf⟩
    · rintro (hx | ⟨_, _, hx, hf⟩)
      · cases hx
      · cases hx; exact hf
  | error e t => simp [bind_of_error h]

@[simp] theorem pure_run : (pure a : EStateM ε σ α) s = .ok a s := rfl

@[simp] theorem modify_run (g : σ → σ) : (modify g : EStateM ε σ PUnit) s = .ok ⟨⟩ (g s) := rfl

@[simp] theorem get_bind_run {f : σ → EStateM ε σ β} : ((get : EStateM ε σ σ) >>= f) s = f s s := rfl

@[simp] theorem modify_bind_run {g : σ → σ} {f : PUnit → EStateM ε σ β} :
    ((modify g : EStateM ε σ PUnit) >>= f) s = f ⟨⟩ (g s) := rfl

@[simp] theorem pure_bind_run : ((pure a : EStateM ε σ α) >>= f) s = f a s := rfl

@[simp] theorem throw_bind_run : ((throw e : EStateM ε σ α) >>= f) s = .error e s := rfl

/-- The computation returns in a state with `P`, or halts in a state with `H`. -/
def Ends (P : α → σ → Prop) (H : σ → Prop) : EStateM.Result ε σ α → Prop
  | .ok a s => P a s
  | .error _ s => H s

theorem Ends.bind {P : α → σ → Prop} {Q : β → σ → Prop} {H : σ → Prop} (hx : Ends P H (x s))
    (hf : ∀ a t, P a t → Ends Q H (f a t)) : Ends Q H ((x >>= f) s) := by
  cases h : x s with
  | ok a t =>
    rw [h] at hx
    rw [bind_of_ok h]
    exact hf a t hx
  | error e t =>
    rw [h] at hx
    rw [bind_of_error h]
    exact hx

theorem Ends.mono {P Q : α → σ → Prop} {H K : σ → Prop} {r : EStateM.Result ε σ α} (h : Ends P H r)
    (hPQ : ∀ a t, P a t → Q a t) (hHK : ∀ t, H t → K t) : Ends Q K r := by
  cases r with
  | ok a t => exact hPQ a t h
  | error e t => exact hHK t h

theorem Ends.imp {P Q : α → σ → Prop} {H : σ → Prop} {r : EStateM.Result ε σ α} (h : Ends P H r)
    (hPQ : ∀ a t, P a t → Q a t) : Ends Q H r :=
  h.mono hPQ fun _ ht => ht

theorem Ends.and {P Q : α → σ → Prop} {H K : σ → Prop} {r : EStateM.Result ε σ α} (h : Ends P H r)
    (h' : Ends Q K r) : Ends (fun a t => P a t ∧ Q a t) H r := by
  cases r with
  | ok a t => exact ⟨h, h'⟩
  | error e t => exact h

/-- What holds however the computation ends holds of its final state. -/
theorem ends_final_iff {P : σ → Prop} {r : EStateM.Result ε σ α} :
    Ends (fun _ t => P t) P r ↔ P (finalState r) := by
  cases r <;> rfl

theorem Ends.final_bind {P : σ → Prop} (hx : Ends (fun a t => P (finalState (f a t))) P (x s)) :
    P (finalState ((x >>= f) s)) :=
  ends_final_iff.mp (hx.bind fun _ _ ht => ends_final_iff.mpr ht)

end JustKernel.Halting
