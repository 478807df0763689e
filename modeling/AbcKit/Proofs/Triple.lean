import Mathlib
/-!
Triples for the state-and-error monads of the library (`Encoder`, `Decoder`, the emitter and
its module tables are all `EStateM`).

`Triple R P act Q`: from a state satisfying `P`, `act` ends in a state related to its start by
`R`, whether it succeeds or fails, and a success returns a value satisfying `Q` in the state it
ends in. The relation is the frame: it says what any run may change, failed runs included, since
a failed call on the emitter keeps the state it reached. With `R` a preorder, triples compose
along `bind`, so each function gets one triple and its callers cite it.

`OnSuccess R act` and `OkTriple R P act Q` look at successful runs only, for facts that a run
failing halfway breaks.
-/
namespace AbcKit

/-- the state a step ends in, whether it succeeded or failed -/
def endState {ε σ α : Type} : EStateM.Result ε σ α → σ
  | .ok _ s => s
  | .error _ s => s

@[simp] theorem endState_ok {ε σ α : Type} (x : α) (s : σ) :
    endState (EStateM.Result.ok x s : EStateM.Result ε σ α) = s := rfl

@[simp] theorem endState_error {ε σ α : Type} (e : ε) (s : σ) :
    endState (EStateM.Result.error e s : EStateM.Result ε σ α) = s := rfl

/-- the value a step returned, if it succeeded -/
def okValue {ε σ α : Type} : EStateM.Result ε σ α → Option α
  | .ok x _ => some x
  | .error _ _ => none

theorem exists_ok_of_okValue {ε σ α : Type} {r : EStateM.Result ε σ α} {x : α}
    (h : okValue r = some x) : ∃ s, r = .ok x s := by
  cases r with
  | ok y s =>
    cases h
    exact ⟨s, rfl⟩
  | error => cases h

/-- from `P`, `act` ends related to its start by `R`, and a success satisfies `Q` -/
def Triple {ε σ α : Type} (R : σ → σ → Prop) (P : σ → Prop) (act : EStateM ε σ α)
    (Q : α → σ → Prop) : Prop :=
  ∀ s, P s → R s (endState (act s)) ∧ ∀ x s', act s = .ok x s' → Q x s'

namespace Triple

variable {ε σ α β : Type} {R : σ → σ → Prop} {P P' : σ → Prop} {Q Q' : α → σ → Prop}

theorem ok_of {act : EStateM ε σ α} (h : Triple R P act Q) {s s' : σ} {x : α} (hs : P s)
    (hact : act s = .ok x s') : R s s' ∧ Q x s' := by
  have hrun := h s hs
  rw [hact] at hrun
  exact ⟨hrun.1, hrun.2 x s' rfl⟩

theorem consequence {act : EStateM ε σ α} (h : Triple R P act Q) (hP : ∀ s, P' s → P s)
    (hQ : ∀ x s, Q x s → Q' x s) : Triple R P' act Q' := fun s hs =>
  let ⟨hr, hq⟩ := h s (hP s hs)
  ⟨hr, fun x s' hx => hQ x s' (hq x s' hx)⟩

theorem weaken {R' : σ → σ → Prop} {act : EStateM ε σ α} (h : Triple R P act Q)
    (hR : ∀ s s', R s s' → R' s s') : Triple R' P act Q := fun s hs =>
  let ⟨hr, hq⟩ := h s hs
  ⟨hR _ _ hr, hq⟩

theorem and {Q₁ Q₂ : α → σ → Prop} {act : EStateM ε σ α} (h₁ : Triple R P act Q₁)
    (h₂ : Triple R P act Q₂) : Triple R P act fun x s => Q₁ x s ∧ Q₂ x s := fun s hs =>
  ⟨(h₁ s hs).1, fun x s' hx => ⟨(h₁ s hs).2 x s' hx, (h₂ s hs).2 x s' hx⟩⟩

theorem frame {F : σ → Prop} {act : EStateM ε σ α} (h : Triple R P act Q)
    (hF : ∀ s s', F s → R s s' → F s') :
    Triple R (fun s => P s ∧ F s) act fun x s => Q x s ∧ F s := fun s ⟨hs, hf⟩ =>
  let ⟨hr, hq⟩ := h s hs
  ⟨hr, fun x s' hx => ⟨hq x s' hx, hF s s' hf (by simpa [hx] using hr)⟩⟩

theorem map {x : EStateM ε σ α} {f : α → β} (h : Triple R P x Q) :
    Triple R P (f <$> x) fun y s => ∃ a, y = f a ∧ Q a s := by
  intro s hs
  obtain ⟨hr, hq⟩ := h s hs
  show R s (endState (EStateM.map f x s)) ∧ ∀ y s', EStateM.map f x s = .ok y s' → _
  unfold EStateM.map
  cases hxs : x s with
  | ok a s₁ =>
    rw [hxs] at hr
    exact ⟨hr, fun y s' hy => by cases hy; exact ⟨a, rfl, hq a s₁ hxs⟩⟩
  | error e s₁ =>
    rw [hxs] at hr
    exact ⟨hr, fun y s' h => by cases h⟩

theorem discard {x : EStateM ε σ α} {Q : PUnit → σ → Prop} (h : Triple R P x fun _ => Q ()) :
    Triple R P (Functor.discard x) Q :=
  (map h).consequence (fun _ hs => hs) fun _ _ ⟨_, hy, hq⟩ => hy ▸ hq

theorem modify {f : σ → σ} {Q : PUnit → σ → Prop} (h : ∀ s, P s → R s (f s) ∧ Q () (f s)) :
    Triple R P (modify f : EStateM ε σ PUnit) Q := fun s hs =>
  ⟨(h s hs).1, fun x s' hx => by cases hx; exact (h s hs).2⟩

theorem set {s₀ : σ} {Q : PUnit → σ → Prop} (h : ∀ s, P s → R s s₀ ∧ Q () s₀) :
    Triple R P (MonadState.set s₀ : EStateM ε σ PUnit) Q := fun s hs =>
  ⟨(h s hs).1, fun x s' hx => by cases hx; exact (h s hs).2⟩

theorem of_const {c : Prop} {act : EStateM ε σ α} (h : c → Triple R (fun _ => True) act Q) :
    Triple R (fun _ => c) act Q := fun s hc => h hc s trivial

variable [IsPreorder σ R]

theorem pure {x : α} (h : ∀ s, P s → Q x s) : Triple R P (Pure.pure x : EStateM ε σ α) Q :=
  fun s hs => ⟨refl_of R s, fun y s' hy => by cases hy; exact h s hs⟩

theorem bind {x : EStateM ε σ α} {f : α → EStateM ε σ β} {M : α → σ → Prop}
    {Q : β → σ → Prop} (hx : Triple R P x M) (hf : ∀ a, Triple R (M a) (f a) Q) :
    Triple R P (x >>= f) Q := by
  intro s hs
  obtain ⟨hr, hq⟩ := hx s hs
  show R s (endState (EStateM.bind x f s)) ∧ ∀ y s', EStateM.bind x f s = .ok y s' → Q y s'
  unfold EStateM.bind
  cases hxs : x s with
  | ok a s₁ =>
    rw [hxs] at hr
    obtain ⟨hr₂, hq₂⟩ := hf a s₁ (hq a s₁ hxs)
    exact ⟨trans_of R hr hr₂, hq₂⟩
  | error e s₁ =>
    rw [hxs] at hr
    exact ⟨hr, fun y s' h => by cases h⟩

theorem throw {e : ε} : Triple R P (throw e : EStateM ε σ α) Q := fun s _ =>
  ⟨refl_of R s, fun _ _ h => by cases h⟩

/-- a guard that throws when `c` holds: what follows runs knowing `c` fails -/
theorem throw_or {c : Prop} [Decidable c] {e : ε} {k : PUnit → EStateM ε σ α}
    (hk : ¬c → Triple R P (k ()) Q) :
    Triple R P (if c then MonadExcept.throw e >>= k else k ()) Q := by
  split
  · exact throw.bind (M := fun _ _ => False) fun _ _ h => h.elim
  · next hc => exact hk hc

theorem get : Triple R P (MonadState.get : EStateM ε σ σ) fun x s => x = s ∧ P s := fun s hs =>
  ⟨refl_of R s, fun x s' h => by cases h; exact ⟨rfl, hs⟩⟩

/-- a step repeated over a list: the results are one per element, each satisfying `Q`, provided
each step keeps `I` and the frame keeps `Q` of results already returned -/
theorem mapM {I : σ → Prop} {Q : β → σ → Prop} {f : α → EStateM ε σ β}
    (hQ : ∀ b s s', Q b s → R s s' → Q b s') (hf : ∀ a, Triple R I (f a) fun b s => Q b s ∧ I s) :
    ∀ l : List α, Triple R I (l.mapM f) fun bs s => bs.length = l.length ∧ (∀ b ∈ bs, Q b s) ∧ I s
  | [] => pure fun s hs => ⟨rfl, by simp, hs⟩
  | a :: l => by
    rw [List.mapM_cons]
    refine (hf a).bind fun b => ?_
    -- the rest of the list runs with `Q b` carried along by the frame
    have hrest := (mapM hQ hf l).frame (F := Q b) fun s s' hq hr => hQ b s s' hq hr
    refine (hrest.consequence (fun s h => ⟨h.2, h.1⟩) fun _ _ h => h).bind fun bs => ?_
    exact pure fun s ⟨⟨hlen, hall, hi⟩, hq⟩ =>
      ⟨by simp [hlen], List.forall_mem_cons.mpr ⟨hq, hall⟩, hi⟩

/-- a fold keeps an invariant of its accumulator when each step does -/
theorem foldlM {J : β → σ → Prop} {f : β → α → EStateM ε σ β}
    (hf : ∀ acc a, Triple R (J acc) (f acc a) J) :
    ∀ (l : List α) (acc : β), Triple R (J acc) (l.foldlM f acc) J
  | [], acc => pure fun _ h => h
  | a :: l, acc => by
    rw [List.foldlM_cons]
    exact (hf acc a).bind fun acc' => foldlM hf l acc'

end Triple

theorem EStateM.bind_eq_ok {ε σ α β : Type} {x : EStateM ε σ α} {f : α → EStateM ε σ β} {s s' : σ}
    {b : β} : (x >>= f) s = .ok b s' ↔ ∃ a s₁, x s = .ok a s₁ ∧ f a s₁ = .ok b s' := by
  show EStateM.bind x f s = _ ↔ _
  unfold EStateM.bind
  cases x s with
  | ok a s₁ =>
    exact ⟨fun h => ⟨a, s₁, rfl, h⟩, fun ⟨_, _, h₁, h₂⟩ => by cases h₁; exact h₂⟩
  | error e s₁ => exact ⟨fun h => (by cases h), fun ⟨_, _, h₁, _⟩ => (by cases h₁)⟩

theorem EStateM.map_eq_ok {ε σ α β : Type} {x : EStateM ε σ α} {f : α → β} {s s' : σ} {y : β}
    (h : (f <$> x) s = .ok y s') : ∃ a, x s = .ok a s' ∧ y = f a := by
  change EStateM.map f x s = _ at h
  unfold EStateM.map at h
  split at h
  · next a s₁ hx =>
    cases h
    exact ⟨a, hx, rfl⟩
  · cases h

theorem EStateM.bind_of_ok {ε σ α β : Type} {x : EStateM ε σ α} {f : α → EStateM ε σ β}
    {s s' : σ} {a : α} (hx : x s = .ok a s') : (x >>= f) s = f a s' := by
  show EStateM.bind x f s = _
  simp only [EStateM.bind, hx]

/-- Every successful run of `act` ends related to its start by `R`. Failed runs are not looked
at: a write that fails halfway leaves bytes that are no instruction, and a call that fails is
outside what the success-only facts are about. -/
def OnSuccess {ε σ α : Type} (R : σ → σ → Prop) (act : EStateM ε σ α) : Prop :=
  ∀ s x s', act s = .ok x s' → R s s'

namespace OnSuccess

variable {ε σ α β : Type} {R : σ → σ → Prop}

theorem throw (e : ε) : OnSuccess R (MonadExcept.throw e : EStateM ε σ α) := fun _ _ _ h => by
  cases h

theorem modify {f : σ → σ} (h : ∀ s, R s (f s)) : OnSuccess R (modify f : EStateM ε σ PUnit) :=
  fun s _ _ hs => by cases hs; exact h s

theorem set {s₀ : σ} (h : ∀ s, R s s₀) : OnSuccess R (MonadState.set s₀ : EStateM ε σ PUnit) :=
  fun s _ _ hs => by cases hs; exact h s

theorem of_triple {P : σ → Prop} {Q : α → σ → Prop} {act : EStateM ε σ α}
    (h : Triple R P act Q) (hP : ∀ s, P s) : OnSuccess R act := fun s _ _ hs =>
  (h.ok_of (hP s) hs).1

theorem mono {R' : σ → σ → Prop} {act : EStateM ε σ α} (h : OnSuccess R act)
    (hR : ∀ s s', R s s' → R' s s') : OnSuccess R' act := fun s x s' hs => hR s s' (h s x s' hs)

theorem map {x : EStateM ε σ α} {f : α → β} (hx : OnSuccess R x) : OnSuccess R (f <$> x) :=
  fun s y s' h => by
    change EStateM.map f x s = _ at h
    unfold EStateM.map at h
    cases hxs : x s with
    | ok a s₁ => rw [hxs] at h; cases h; exact hx s a _ hxs
    | error e s₁ => rw [hxs] at h; cases h

theorem discard {x : EStateM ε σ α} (hx : OnSuccess R x) : OnSuccess R (Functor.discard x) :=
  hx.map

variable [IsPreorder σ R]

theorem pure (x : α) : OnSuccess R (Pure.pure x : EStateM ε σ α) := fun s _ _ h => by
  cases h; exact refl_of R s

theorem get : OnSuccess R (MonadState.get : EStateM ε σ σ) := fun s _ _ h => by
  cases h; exact refl_of R s

theorem bind {x : EStateM ε σ α} {f : α → EStateM ε σ β} (hx : OnSuccess R x)
    (hf : ∀ a, OnSuccess R (f a)) : OnSuccess R (x >>= f) := fun s _ _ h => by
  obtain ⟨a, s₁, h₁, h₂⟩ := EStateM.bind_eq_ok.mp h
  exact trans_of R (hx s a s₁ h₁) (hf a s₁ _ _ h₂)

/-- a bind whose second step only meets the values the first can return -/
theorem bind_of {x : EStateM ε σ α} {f : α → EStateM ε σ β} {P : α → Prop} (hx : OnSuccess R x)
    (hP : ∀ s a s', x s = .ok a s' → P a) (hf : ∀ a, P a → OnSuccess R (f a)) :
    OnSuccess R (x >>= f) := fun s _ _ h => by
  obtain ⟨a, s₁, h₁, h₂⟩ := EStateM.bind_eq_ok.mp h
  exact trans_of R (hx s a s₁ h₁) (hf a (hP s a s₁ h₁) s₁ _ _ h₂)

theorem mapM {f : α → EStateM ε σ β} (hf : ∀ a, OnSuccess R (f a)) :
    ∀ l : List α, OnSuccess R (l.mapM f)
  | [] => pure _
  | a :: l => by
    rw [List.mapM_cons]
    exact (hf a).bind fun _ => (mapM hf l).bind fun _ => pure _

end OnSuccess

/-- From a state satisfying `P`, every successful run of `act` ends related to its start by `R`
and returns a value satisfying `Q` in the state it ends in. As for `OnSuccess`, failed runs are
not looked at; the precondition carries what earlier steps established, such as where they wrote
something that a later step overwrites. -/
def OkTriple {ε σ α : Type} (R : σ → σ → Prop) (P : σ → Prop) (act : EStateM ε σ α)
    (Q : α → σ → Prop) : Prop :=
  ∀ s x s', P s → act s = .ok x s' → R s s' ∧ Q x s'

namespace OkTriple

variable {ε σ α β : Type} {R : σ → σ → Prop} {P P' : σ → Prop} {Q Q' : α → σ → Prop}

theorem consequence {act : EStateM ε σ α} (h : OkTriple R P act Q) (hP : ∀ s, P' s → P s)
    (hQ : ∀ x s, Q x s → Q' x s) : OkTriple R P' act Q' := fun s x s' hs hact =>
  let ⟨hr, hq⟩ := h s x s' (hP s hs) hact
  ⟨hr, hQ x s' hq⟩

theorem throw (e : ε) : OkTriple R P (MonadExcept.throw e : EStateM ε σ α) Q :=
  fun _ _ _ _ h => by cases h

theorem relate {R' : σ → σ → Prop} {act : EStateM ε σ α} (h : OkTriple R P act Q)
    (h' : OnSuccess R' act) : OkTriple R' P act Q := fun s x s' hs hact =>
  ⟨h' s x s' hact, (h s x s' hs hact).2⟩

theorem map {x : EStateM ε σ α} {f : α → β} (h : OkTriple R P x Q) :
    OkTriple R P (f <$> x) fun y s => ∃ a, y = f a ∧ Q a s := fun s y s' hs hact => by
  change EStateM.map f x s = _ at hact
  unfold EStateM.map at hact
  cases hxs : x s with
  | ok a s₁ =>
    rw [hxs] at hact
    cases hact
    exact ⟨(h s a _ hs hxs).1, a, rfl, (h s a _ hs hxs).2⟩
  | error e s₁ =>
    rw [hxs] at hact
    cases hact

theorem discard {x : EStateM ε σ α} {Q : PUnit → σ → Prop} (h : OkTriple R P x fun _ => Q ()) :
    OkTriple R P (Functor.discard x) Q :=
  (map h).consequence (fun _ hs => hs) fun _ _ ⟨_, hy, hq⟩ => hy ▸ hq

theorem modify {f : σ → σ} {Q : PUnit → σ → Prop} (h : ∀ s, P s → R s (f s) ∧ Q () (f s)) :
    OkTriple R P (modify f : EStateM ε σ PUnit) Q := fun s _ _ hs hact => by
  cases hact
  exact h s hs

theorem set {s₀ : σ} {Q : PUnit → σ → Prop} (h : ∀ s, P s → R s s₀ ∧ Q () s₀) :
    OkTriple R P (MonadState.set s₀ : EStateM ε σ PUnit) Q := fun s _ _ hs hact => by
  cases hact
  exact h s hs

variable [IsPreorder σ R]

theorem pure {x : α} (h : ∀ s, P s → Q x s) : OkTriple R P (Pure.pure x : EStateM ε σ α) Q :=
  fun s _ _ hs hact => by cases hact; exact ⟨refl_of R s, h s hs⟩

theorem get : OkTriple R P (MonadState.get : EStateM ε σ σ) fun x s => x = s ∧ P s :=
  fun s _ _ hs hact => by cases hact; exact ⟨refl_of R s, rfl, hs⟩

theorem bind {x : EStateM ε σ α} {f : α → EStateM ε σ β} {M : α → σ → Prop}
    {Q : β → σ → Prop} (hx : OkTriple R P x M) (hf : ∀ a, OkTriple R (M a) (f a) Q) :
    OkTriple R P (x >>= f) Q := fun s _ _ hs hact => by
  obtain ⟨a, s₁, h₁, h₂⟩ := EStateM.bind_eq_ok.mp hact
  obtain ⟨hr₁, hm⟩ := hx s a s₁ hs h₁
  obtain ⟨hr₂, hq⟩ := hf a s₁ _ _ hm h₂
  exact ⟨trans_of R hr₁ hr₂, hq⟩

/-- a step repeated over a list keeps an invariant that the step keeps for each member -/
theorem forM {I : σ → Prop} {f : α → EStateM ε σ PUnit} :
    ∀ l : List α, (∀ a ∈ l, OkTriple R I (f a) fun _ => I) → OkTriple R I (l.forM f) fun _ => I
  | [], _ => pure fun _ h => h
  | a :: l, hf => by
    simp only [List.forM]
    exact (hf a List.mem_cons_self).bind fun _ =>
      forM l fun b hb => hf b (List.mem_cons_of_mem a hb)

end OkTriple

/-! ## Steps that cannot fail -/

/-- `act` succeeds from every state; with a triple, a call then returns what the triple says -/
def Succeeds {ε σ α : Type} (act : EStateM ε σ α) : Prop := ∀ s, ∃ x s', act s = .ok x s'

namespace Succeeds

variable {ε σ α β : Type}

theorem pure (x : α) : Succeeds (Pure.pure x : EStateM ε σ α) := fun s => ⟨x, s, rfl⟩

theorem get : Succeeds (MonadState.get : EStateM ε σ σ) := fun s => ⟨s, s, rfl⟩

theorem set (s₀ : σ) : Succeeds (MonadState.set s₀ : EStateM ε σ PUnit) := fun _ => ⟨⟨⟩, s₀, rfl⟩

theorem bind {x : EStateM ε σ α} {f : α → EStateM ε σ β} (hx : Succeeds x)
    (hf : ∀ a, Succeeds (f a)) : Succeeds (x >>= f) := fun s =>
  let ⟨a, s₁, h₁⟩ := hx s
  let ⟨b, s₂, h₂⟩ := hf a s₁
  ⟨b, s₂, EStateM.bind_eq_ok.mpr ⟨a, s₁, h₁, h₂⟩⟩

/-- a step repeated over a list succeeds when it does on each member -/
theorem mapM {f : α → EStateM ε σ β} :
    ∀ l : List α, (∀ a ∈ l, Succeeds (f a)) → Succeeds (l.mapM f)
  | [], _ => pure []
  | a :: l, hf => by
    rw [List.mapM_cons]
    exact (hf a List.mem_cons_self).bind fun b =>
      (mapM l fun a' ha' => hf a' (List.mem_cons_of_mem a ha')).bind fun bs => pure (b :: bs)

/-- a fold succeeds when each step does, from every accumulator -/
theorem foldlM {f : β → α → EStateM ε σ β} :
    ∀ l : List α, (∀ acc, ∀ a ∈ l, Succeeds (f acc a)) → ∀ acc, Succeeds (l.foldlM f acc)
  | [], _, acc => pure acc
  | a :: l, hf, acc => by
    rw [List.foldlM_cons]
    exact (hf acc a List.mem_cons_self).bind fun acc' =>
      foldlM l (fun acc'' a' ha' => hf acc'' a' (List.mem_cons_of_mem a ha')) acc'

end Succeeds

end AbcKit
