import DeployClient.Session
import Mathlib.Tactic.Lemma

/-!
How an action ends: with a value, or with an error.

A statement about an action says what holds of the value and the session if it goes well, and what
holds of the session if it fails. It is put together along the steps of the action.
-/

namespace DeployClient.Action

variable {ε δ α β : Type} {s : Session} {Q : α → Session → Prop} {E : Session → Prop}

/-- The action ends with a value in `Q`, or with an error and in `E`. -/
def Ends (x : Action ε α) (s : Session) (Q : α → Session → Prop) (E : Session → Prop) : Prop :=
  match x s with
  | .ok a s' => Q a s'
  | .error _ s' => E s'

namespace Ends

lemma pure {a : α} (h : Q a s) : Ends (pure a : Action ε α) s Q E := h

lemma throw {e : ε} (h : E s) : Ends (throw e : Action ε α) s Q E := h

lemma get {Q : Session → Session → Prop} (h : Q s s) : Ends (get : Action ε Session) s Q E := h

lemma modify {Q : Unit → Session → Prop} {f : Session → Session} (h : Q () (f s)) :
    Ends (modify f : Action ε Unit) s Q E := h

lemma set {Q : PUnit → Session → Prop} {s' : Session} (h : Q () s') :
    Ends (set s' : Action ε PUnit) s Q E := h

lemma bind {x : Action ε α} {f : α → Action ε β} {R : β → Session → Prop} (hx : Ends x s Q E)
    (hf : ∀ a s', Q a s' → Ends (f a) s' R E) : Ends (x >>= f) s R E := by
  unfold Ends at hx ⊢
  show match EStateM.bind x f s with
    | .ok a s' => R a s'
    | .error _ s' => E s'
  rcases h : x s with ⟨a, s'⟩ | ⟨e, s'⟩
  · rw [h] at hx
    simp only [EStateM.bind, h]
    exact hf a s' hx
  · rw [h] at hx
    simpa only [EStateM.bind, h] using hx

lemma mono {x : Action ε α} {R : α → Session → Prop} {F : Session → Prop} (hx : Ends x s Q E)
    (hq : ∀ a s', Q a s' → R a s') (he : ∀ s', E s' → F s') : Ends x s R F := by
  unfold Ends at hx ⊢
  split at hx
  · exact hq _ _ hx
  · exact he _ hx

lemma ofExcept {r : Except ε α} (hok : ∀ a, r = .ok a → Q a s) (herr : ∀ e, r = .error e → E s) :
    Ends (ofExcept r) s Q E := by
  cases r with
  | ok a => exact hok a rfl
  | error e => exact herr e rfl

lemma wrap {x : Action ε α} (f : ε → δ) (hx : Ends x s Q E) : Ends (x.wrap f) s Q E := by
  unfold Ends at hx ⊢
  show match EStateM.adaptExcept f x s with
    | .ok a s' => Q a s'
    | .error _ s' => E s'
  rcases h : x s with ⟨a, s'⟩ | ⟨e, s'⟩ <;>
  · rw [h] at hx
    simpa only [EStateM.adaptExcept, h] using hx

end Ends

/-- Errors are told in other words whether this is done step by step or in the end. -/
lemma wrap_bind (g : ε → δ) (x : Action ε α) (f : α → Action ε β) :
    (x >>= f).wrap g = (do
      let a ← x.wrap g
      (f a).wrap g : Action δ β) := by
  funext s
  show EStateM.adaptExcept g (EStateM.bind x f) s
    = EStateM.bind (EStateM.adaptExcept g x) (fun a => EStateM.adaptExcept g (f a)) s
  rcases h : x s with ⟨a, s'⟩ | ⟨e, s'⟩ <;> simp only [EStateM.adaptExcept, EStateM.bind, h]

end DeployClient.Action
