import AbcKit.Proofs.LastJumps
import AbcKit.Proofs.TryRegions
/-!
What the calls on one method have set up, kept true by every call that succeeds under strict
ordering.

`MethodIntent.Tracks lm m` ties the intent `lm` of the calls made on a method to its state `m`.
The method is laid out, no branch is pending twice, and:

* each pending if, else, frame jump and try-region jump of `m` is the last jump of the span the
  intent keeps for it (`MethodIntent.Matches`), so the call that lands it lands the jump the
  intent means;
* each jump whose targets the intent knows is in the code, is no longer pending, and goes to
  them (`Jump.Lands`);
* each label the intent records is a `label` instruction of the code.

A call moves the code by keeping it (`Buffer.Keeps`): only branches that were pending, or that the
call wrote, change their displacement. A landed jump is not pending, so no later call touches it:
`MethodIntent.Tracks.step` carries every landed jump and label through any such call, and each
call's own lemma only shows what it adds. `MethodIntent.Tracks.adds` covers every call that writes
instructions and adds no pending branch but into finally bodies.
-/
namespace AbcKit

/-! ## Lists related elementwise -/

namespace List.Forall₂

variable {α β γ : Type} {R : α → β → Prop} {l : List α} {l' : List β}

theorem exists_of_mem_left (h : List.Forall₂ R l l') {a : α} (ha : a ∈ l) : ∃ b ∈ l', R a b := by
  induction h with
  | nil => cases ha
  | cons hab _ ih =>
    rcases List.mem_cons.mp ha with rfl | ha
    · exact ⟨_, List.mem_cons_self, hab⟩
    · obtain ⟨b, hb, hab'⟩ := ih ha
      exact ⟨b, List.mem_cons_of_mem _ hb, hab'⟩

theorem getElem?_rel (h : List.Forall₂ R l l') (i : Nat) : Option.Rel R l[i]? l'[i]? := by
  induction h generalizing i with
  | nil => exact .none
  | cons hab _ ih =>
    cases i with
    | zero => exact .some hab
    | succ i => exact ih i

theorem modify {f : α → α} {g : β → β} (h : List.Forall₂ R l l') (hfg : ∀ a b, R a b → R (f a) (g b))
    (i : Nat) : List.Forall₂ R (l.modify i f) (l'.modify i g) := by
  induction h generalizing i with
  | nil => simp
  | cons hab _ ih =>
    cases i with
    | zero => exact .cons (hfg _ _ hab) (by assumption)
    | succ i => exact .cons hab (ih i)

theorem trans_right {S : β → γ → Prop} {l'' : List γ} (h : List.Forall₂ R l l')
    (h' : List.Forall₂ S l' l'') {T : α → γ → Prop} (hRS : ∀ a b c, R a b → S b c → T a c) :
    List.Forall₂ T l l'' := by
  induction h generalizing l'' with
  | nil => cases h'; exact .nil
  | cons hab _ ih =>
    cases h' with
    | cons hbc h' => exact .cons (hRS _ _ _ hab hbc) (ih h')

theorem dropLast (h : List.Forall₂ R l l') : List.Forall₂ R l.dropLast l'.dropLast := by
  rw [List.dropLast_eq_take, List.dropLast_eq_take, h.length_eq]
  exact List.forall₂_take _ h

end List.Forall₂

/-- changing one member of a list changes its flattening only by what the change does to that
member -/
theorem List.perm_flatMap_modify {α β : Type} [DecidableEq β] {P : α → List β} {g : α → α} {X Y : List β} :
    ∀ {l : List α} {i : Nat} {a : α}, l[i]? = some a → (P (g a) ++ X).Perm (P a ++ Y) →
      ((l.modify i g).flatMap P ++ X).Perm (l.flatMap P ++ Y)
  | [], _, _, h, _ => by cases h
  | x :: l, 0, a, h, hg => by
    cases h
    rw [List.perm_iff_count] at hg ⊢
    intro b
    have := hg b
    simp only [List.modify_zero_cons, List.flatMap_cons, List.count_append] at this ⊢
    omega
  | x :: l, i + 1, a, h, hg => by
    rw [List.modify_succ_cons, List.flatMap_cons, List.flatMap_cons, List.append_assoc,
      List.append_assoc]
    have h' : l[i]? = some a := h
    exact (perm_flatMap_modify h' hg).append_left (P x)

theorem Option.Rel.imp {α β : Type} {r r' : α → β → Prop} (h : ∀ a b, r a b → r' a b)
    {x : Option α} {y : Option β} (hxy : Option.Rel r x y) : Option.Rel r' x y := by
  cases hxy with
  | some hab => exact .some (h _ _ hab)
  | none => exact .none

theorem Option.Rel.exists_of_some_right {α β : Type} {r : α → β → Prop} {x : Option α} {b : β}
    (h : Option.Rel r x (some b)) : ∃ a, x = some a ∧ r a b := by
  cases h with
  | some hab => exact ⟨_, rfl, hab⟩

/-! ## Kept code -/

namespace Buffer

variable {c c' : Buffer} {Q : List Nat} {s : Nat}

theorem branchAt_iff : c.BranchAt s ↔ c.Laid ∧ ∃ op d, (s, Instruction.branch op d) ∈ c.layout := by
  constructor
  · rintro ⟨insts, h, op, d, hs⟩
    refine ⟨⟨insts, h⟩, op, d, ?_⟩
    rw [h.layout]
    exact hs
  · rintro ⟨⟨insts, h⟩, op, d, hs⟩
    rw [h.layout] at hs
    exact ⟨insts, h, op, d, hs⟩

theorem Laid.lt_size (h : c.Laid) {p : Nat × Instruction} (hp : p ∈ c.layout) : p.1 < c.size :=
  let ⟨_, hc⟩ := h
  hc.lt_size hp

theorem BranchAt.lt_size (h : c.BranchAt s) : s < c.size := by
  obtain ⟨hl, op, d, hs⟩ := branchAt_iff.mp h
  exact hl.lt_size hs

theorem Keeps.mem (h : c.Keeps c' Q) {p : Nat × Instruction} (hp : p ∈ c.layout)
    (hj : p.2.isJump = false) : p ∈ c'.layout := by
  obtain ⟨-, -, g, hg, R, -, hl⟩ := h
  have hgp : g p = p := by
    rcases hg p with h | ⟨-, op, d, d', hb, -⟩
    · exact h
    · rw [hb] at hj
      cases hj
  rw [hl]
  exact List.mem_append_left _ (List.mem_map.mpr ⟨p, hp, hgp⟩)

theorem Keeps.branchAt (h : c.Keeps c' Q) (hs : c.BranchAt s) : c'.BranchAt s := by
  obtain ⟨-, op, d, hmem⟩ := branchAt_iff.mp hs
  have hlaid := h.laid
  obtain ⟨-, -, g, hg, R, -, hl⟩ := h
  obtain ⟨d', hd'⟩ := (hg (s, .branch op d)).branch
  refine branchAt_iff.mpr ⟨hlaid, op, d', ?_⟩
  rw [hl, ← hd']
  exact List.mem_append_left _ (List.mem_map_of_mem hmem)

/-- landing one branch of the code keeps the code, with that branch landed -/
theorem keeps_landOne {t : Nat} (hs : c.BranchAt s) (hv : S24.Fits ((t : Int) - s - 4)) :
    c.Keeps (c.setSlot (s + 1) ((t : Int) - s - 4)) [s] ∧
      (c.setSlot (s + 1) ((t : Int) - s - 4)).layout = c.layout.map (Instruction.land [s] t) := by
  obtain ⟨insts, hi, op, d, hmem⟩ := hs
  show c.Keeps ([s].foldl (fun c s => c.setSlot (s + 1) ((t : Int) - s - 4)) c) [s] ∧
    ([s].foldl (fun c s => c.setSlot (s + 1) ((t : Int) - s - 4)) c).layout = _
  refine keeps_landAll hi fun s' hs' => ?_
  rw [List.mem_singleton.mp hs', hi.layout]
  exact ⟨⟨op, d, hmem⟩, hv⟩

/-- Instructions without jumps written after the code keep the last jump of a span that runs to
its end, for the span that runs to the new end. -/
theorem lastJump_append {lo : Nat} {x : Nat × Instruction}
    (h : (⟨lo, c.size⟩ : Emit.Span).lastJump c.layout = some x) (hl : c.Laid)
    {W : List Instruction} (hW : ∀ i ∈ W, i.Fits ∧ i.isJump = false) :
    (⟨lo, (c.append (W.flatMap Instruction.bytes)).size⟩ : Emit.Span).lastJump
      (c.append (W.flatMap Instruction.bytes)).layout = some x := by
  obtain ⟨insts, hi⟩ := hl
  have hfits : ∀ i ∈ W, i.Fits := fun i hi => (hW i hi).1
  have hlayout : (c.append (W.flatMap Instruction.bytes)).layout =
      c.layout ++ Instruction.place c.size W := by
    rw [(hi.append hfits).layout, hi.layout, Instruction.place_append, Nat.zero_add, hi.size]
  rw [hlayout, Emit.Span.lastJump_append_of fun p hp => ?_]
  · rw [← h]
    exact Emit.Span.lastJump_hi fun p hp => ⟨(hi.lt_size hp).trans_le (by simp), hi.lt_size hp⟩
  · have hmem : p.2 ∈ W := by
      rw [← Instruction.map_snd_place c.size W]
      exact List.mem_map_of_mem hp
    exact .inr (hW _ hmem).2

theorem JumpAt.append {lo : Nat} (h : c.JumpAt ⟨lo, c.size⟩ s) (hl : c.Laid) {W : List Instruction}
    (hW : ∀ i ∈ W, i.Fits ∧ i.isJump = false) :
    (c.append (W.flatMap Instruction.bytes)).JumpAt ⟨lo, (c.append (W.flatMap Instruction.bytes)).size⟩ s := by
  obtain ⟨-, op, d, hj⟩ := h
  exact ⟨le_refl _, op, d, lastJump_append hj hl hW⟩

end Buffer

namespace Emit

/-! ## What a method's intent asks of its code -/

/-- In code `c`, with the branches at `P` still pending: the jump's span ends inside the code, its
last jump is no longer pending, and it goes to exactly the jump's targets while the code is
shorter than `2 ^ 31` bytes, the reach of a jump table's displacements. -/
def Jump.Lands (c : Buffer) (P : List Nat) (j : Jump) : Prop :=
  j.span.hi ≤ c.size ∧ ∃ s i, j.span.lastJump c.layout = some (s, i) ∧ s ∉ P ∧
    (c.size < 2 ^ 31 → i.targets s = j.targets.map Nat.cast)

/-- an open frame as its intent describes it: its pending jumps are the last jumps of the spans
the intent keeps for them, and its loop top and case labels are the intent's, inside the code -/
structure FrameIntent.Tracks (c : Buffer) (fi : FrameIntent) (f : LoopFrame) : Prop where
  kind : fi.kind = f.kind
  entry : Option.Rel c.JumpAt fi.entry f.entry
  top : fi.top = f.top
  breaks : List.Forall₂ c.JumpAt fi.breaks f.breaks
  continues : List.Forall₂ c.JumpAt fi.continues f.continues
  cases : fi.cases = f.cases
  defaultCase : fi.defaultCase = f.defaultCase
  cases_lt : ∀ a ∈ f.cases, a < c.size
  default_lt : ∀ a ∈ f.defaultCase, a < c.size

/-- an open try region as its intent describes it: its pending jumps over and out of the handlers
are the last jumps of the spans the intent keeps for them -/
structure RegionIntent.Tracks (c : Buffer) (ri : RegionIntent) (b : HandlerBlock) : Prop where
  hasFinally : ri.hasFinally = b.hasFinally
  skip : Option.Rel c.JumpAt ri.skip b.skip
  ends : List.Forall₂ c.JumpAt ri.ends b.handlerEnds
  clauses : ri.clauses = b.clauses

/-- the pending constructs of an intent are those of a method's flow and regions, in order -/
structure MethodIntent.Matches (lm : MethodIntent) (c : Buffer) (fl : FlowState)
    (hs : List HandlerBlock) : Prop where
  ifs : List.Forall₂ c.JumpAt lm.ifs (fl.ifs.map BranchFrame.site)
  elses : List.Forall₂ c.JumpAt lm.elses (fl.elses.map BranchFrame.site)
  frames : List.Forall₂ (FrameIntent.Tracks c) lm.frames fl.loops
  regions : List.Forall₂ (RegionIntent.Tracks c) lm.regions hs

/-- The intent of the calls on a method holds of its state: ordering is strict, the code is laid
out with no branch pending twice, the pending constructs match, every jump with known targets
lands on them, and every recorded label is one. -/
structure MethodIntent.Tracks (lm : MethodIntent) (m : MethodState) : Prop where
  strict : m.strict = true
  laid : m.Laid
  nodup : m.pending.Nodup
  agrees : lm.Matches m.code m.flow m.handlers
  jumps : ∀ j ∈ lm.jumps, j.Lands m.code m.pending
  labels : ∀ a ∈ lm.labels, (a, Instruction.simple SimpleOp.label) ∈ m.code.layout

/-! ## Kept code keeps what the intent asks -/

section Keeps

variable {c c' : Buffer} {Q : List Nat}

/-- A landed jump stays landed in kept code when the branches it keeps changing were pending or
written past the old code, and so are those pending afterwards: its own site is neither. -/
theorem Jump.Lands.keeps {P P' : List Nat} {j : Jump} (h : j.Lands c P) (hl : c.Laid)
    (hk : c.Keeps c' Q) (hQ : ∀ q ∈ Q, q ∈ P ∨ c.size ≤ q) (hP : ∀ s ∈ P', s ∈ P ∨ c.size ≤ s) :
    j.Lands c' P' := by
  obtain ⟨hhi, s, i, hj, hsP, ht⟩ := h
  have hlt : s < c.size := hl.lt_size (Span.lastJump_mem hj).1
  have hold : ∀ {P₀ : List Nat}, (∀ q ∈ P₀, q ∈ P ∨ c.size ≤ q) → s ∉ P₀ := fun hP₀ hs => by
    rcases hP₀ s hs with hs | hs
    · exact hsP hs
    · omega
  obtain ⟨i', hj', hr⟩ := hk.lastJump hhi hj
  have hi : i' = i := (Prod.mk.inj (hr.eq_of_not_mem (hold hQ))).2
  subst hi
  exact ⟨hhi.trans hk.size, s, i', hj', hold hP, fun hsize => ht (lt_of_le_of_lt hk.size hsize)⟩

theorem FrameIntent.Tracks.keeps {fi : FrameIntent} {f : LoopFrame} (h : fi.Tracks c f)
    (hk : c.Keeps c' Q) : fi.Tracks c' f where
  kind := h.kind
  entry := Option.Rel.imp (fun _ _ hj => hj.keeps hk) h.entry
  top := h.top
  breaks := h.breaks.imp fun _ _ hj => hj.keeps hk
  continues := h.continues.imp fun _ _ hj => hj.keeps hk
  cases := h.cases
  defaultCase := h.defaultCase
  cases_lt a ha := (h.cases_lt a ha).trans_le hk.size
  default_lt a ha := (h.default_lt a ha).trans_le hk.size

theorem RegionIntent.Tracks.keeps {ri : RegionIntent} {b : HandlerBlock} (h : ri.Tracks c b)
    (hk : c.Keeps c' Q) : ri.Tracks c' b where
  hasFinally := h.hasFinally
  skip := Option.Rel.imp (fun _ _ hj => hj.keeps hk) h.skip
  ends := h.ends.imp fun _ _ hj => hj.keeps hk
  clauses := h.clauses

theorem RegionIntent.Tracks.sameRegion {ri : RegionIntent} {b b' : HandlerBlock}
    (h : ri.Tracks c b) (hb : b.SameRegion b') : ri.Tracks c b' where
  hasFinally := h.hasFinally.trans hb.hasFinally.symm
  skip := hb.skip ▸ h.skip
  ends := hb.handlerEnds ▸ h.ends
  clauses := h.clauses.trans hb.clauses.symm

theorem MethodIntent.Matches.keeps {lm : MethodIntent} {fl : FlowState} {hs : List HandlerBlock}
    (h : lm.Matches c fl hs) (hk : c.Keeps c' Q) : lm.Matches c' fl hs where
  ifs := h.ifs.imp fun _ _ hj => hj.keeps hk
  elses := h.elses.imp fun _ _ hj => hj.keeps hk
  frames := h.frames.imp fun _ _ hf => hf.keeps hk
  regions := h.regions.imp fun _ _ hr => hr.keeps hk

/-- regions moved by a step that keeps their ranges, states and catch handlers match alike -/
theorem MethodIntent.Matches.sameRegions {lm : MethodIntent} {fl : FlowState}
    {hs hs' : List HandlerBlock} (h : lm.Matches c fl hs)
    (hr : List.Forall₂ HandlerBlock.SameRegion hs hs') : lm.Matches c fl hs' :=
  { h with regions := List.Forall₂.trans_right h.regions hr fun _ _ _ ht hb => ht.sameRegion hb }

end Keeps

/-! ## One step of a tracked method -/

/-! ## Jumps landed by a step -/

section Landed

variable {c c' : Buffer} {Q P : List Nat} {t : Nat}

/-- the last jump of a span, landed on `t`, lands there once it is no longer pending -/
theorem Jump.lands_of_jumpAt {sp : Span} {s : Nat} (h : c.JumpAt sp s)
    (hl : c'.layout = c.layout.map (Instruction.land Q t)) (hs : s ∈ Q)
    (hv : S24.Fits ((t : Int) - s - 4)) (hsize : c.size ≤ c'.size) (hP : s ∉ P) :
    (⟨sp, [t]⟩ : Jump).Lands c' P := by
  obtain ⟨i, hj, ht⟩ := h.land hl hs hv
  exact ⟨h.1.trans hsize, s, i, hj, hP, fun _ => by simpa using ht⟩

/-- the last jumps of spans, all landed on `t`, land there once none is pending -/
theorem Jump.toAll_lands {spans : List Span} {sites : List Nat}
    (h : List.Forall₂ c.JumpAt spans sites) (hl : c'.layout = c.layout.map (Instruction.land Q t))
    (hs : ∀ s ∈ sites, s ∈ Q ∧ S24.Fits ((t : Int) - s - 4) ∧ s ∉ P) (hsize : c.size ≤ c'.size) :
    ∀ j ∈ Jump.toAll spans t, j.Lands c' P := by
  intro j hj
  obtain ⟨sp, hsp, rfl⟩ := List.mem_map.mp hj
  obtain ⟨s, hs', hjs⟩ := List.Forall₂.exists_of_mem_left h hsp
  obtain ⟨hq, hv, hp⟩ := hs s hs'
  exact Jump.lands_of_jumpAt hjs hl hq hv hsize hp

end Landed

/-! ## Writing keeps the code -/

namespace MethodState

variable {m m' : MethodState} {site : Nat}

theorem Laid.lt_size (h : m.Laid) {s : Nat} (hs : s ∈ m.pending) : s < m.code.size :=
  (h.pending s hs).lt_size

theorem Writes.keeps (h : m.Writes m') (hl : m.code.Laid) : m.code.Keeps m'.code [] := by
  obtain ⟨-, -, -, -, A, hA, hc⟩ := h
  obtain ⟨insts, hi⟩ := hl
  rw [hc]
  exact Buffer.keeps_append hi fun i hi => (hA i hi).1

theorem Adds.keeps (h : m.Adds m') (hl : m.code.Laid) : m.code.Keeps m'.code [] := by
  obtain ⟨-, -, -, -, A, hA, hc, -⟩ := h
  obtain ⟨insts, hi⟩ := hl
  rw [hc]
  exact Buffer.keeps_append hi hA

theorem Emits.keeps {i : Instruction} (h : m.Emits i site m') (hl : m.code.Laid) :
    m.code.Keeps m'.code [] :=
  h.adds.keeps hl

theorem Emits.layout {i : Instruction} (h : m.Emits i site m') (hl : m.code.Laid) :
    ∃ L, m'.code.layout = L ++ [(site, i)] := by
  obtain ⟨-, -, -, -, A, hA, hi', rfl, hc⟩ := h
  obtain ⟨insts, hi⟩ := hl
  have hfits : ∀ j ∈ A ++ [i], j.Fits := by
    intro j hj
    rcases List.mem_append.mp hj with hj | hj
    · exact (hA j hj).1
    · rw [List.mem_singleton.mp hj]
      exact hi'
  refine ⟨Instruction.place 0 (insts ++ A), ?_⟩
  rw [hc, (hi.append hfits).layout, ← List.append_assoc, Instruction.place_append]
  simp [Instruction.place, hi.size]

theorem Emits.mem_layout {i : Instruction} (h : m.Emits i site m') (hl : m.code.Laid) :
    (site, i) ∈ m'.code.layout := by
  obtain ⟨L, hL⟩ := h.layout hl
  rw [hL]
  exact List.mem_append_right _ List.mem_cons_self

/-- a jump written after instructions without jumps is the last jump of every span that starts
at or before the old end of the code and runs to the new one -/
theorem Emits.lastJump {i : Instruction} (h : m.Emits i site m') (hl : m.code.Laid)
    (hj : i.isJump = true) {lo : Nat} (hlo : lo ≤ m.code.size) :
    (⟨lo, m'.code.size⟩ : Span).lastJump m'.code.layout = some (site, i) := by
  obtain ⟨L, hL⟩ := h.layout hl
  have hlt := h.lt_size
  rw [hL]
  exact Span.lastJump_concat ⟨hlo.trans hlt.1, hlt.2⟩ hj

theorem Emits.jumpAt {op : BranchOp} {d : Int32} (h : m.Emits (.branch op d) site m')
    (hl : m.code.Laid) {lo : Nat} (hlo : lo ≤ m.code.size) :
    m'.code.JumpAt ⟨lo, m'.code.size⟩ site :=
  ⟨le_refl _, op, d, h.lastJump hl rfl hlo⟩

/-- instructions without jumps written after the code keep the last jump of a span that runs to
its end -/
theorem Writes.jumpAt (h : m.Writes m') (hl : m.code.Laid) {lo s : Nat}
    (hj : m.code.JumpAt ⟨lo, m.code.size⟩ s) : m'.code.JumpAt ⟨lo, m'.code.size⟩ s := by
  obtain ⟨-, -, -, -, A, hA, hc⟩ := h
  rw [hc]
  exact hj.append hl hA

theorem Writes.lastJump (h : m.Writes m') (hl : m.code.Laid) {lo : Nat} {x : Nat × Instruction}
    (hj : (⟨lo, m.code.size⟩ : Span).lastJump m.code.layout = some x) :
    (⟨lo, m'.code.size⟩ : Span).lastJump m'.code.layout = some x := by
  obtain ⟨-, -, -, -, A, hA, hc⟩ := h
  rw [hc]
  exact Buffer.lastJump_append hj hl hA

end MethodState

/-! ## One step of a tracked method -/

namespace MethodIntent

variable {lm lm' : MethodIntent} {m m' : MethodState} {L N : List Nat}

/-- After a step whose pending branches, with those it landed (`L`), are the ones pending before
with new ones (`N`) past the old code, no branch is pending twice or both pending and landed. -/
theorem Tracks.nodup_after (h : lm.Tracks m) (hperm : (m'.pending ++ L).Perm (m.pending ++ N))
    (hN : ∀ s ∈ N, m.code.size ≤ s) (hnd : N.Nodup) : (m'.pending ++ L).Nodup := by
  refine hperm.nodup_iff.mpr (List.nodup_append.mpr ⟨h.nodup, hnd, fun a ha b hb hab => ?_⟩)
  have := h.laid.lt_size ha
  have := hN b hb
  omega

theorem Tracks.not_pending (h : lm.Tracks m) (hperm : (m'.pending ++ L).Perm (m.pending ++ N))
    (hN : ∀ s ∈ N, m.code.size ≤ s) (hnd : N.Nodup) {s : Nat} (hs : s ∈ L) : s ∉ m'.pending :=
  fun hp => (List.nodup_append.mp (h.nodup_after hperm hN hnd)).2.2 s hp s hs rfl

/-- **One step keeps a method tracked.** The step keeps the code but for the branches at `L`,
which are no longer pending; the branches pending afterwards are the others pending before and
new branches `N` written past the old code. Every landed jump and recorded label stays as it was,
since its site is neither pending nor landed again. What the step's own intent asks is left to
show: its pending constructs match, and the jumps and labels it adds land and are labels. -/
theorem Tracks.step (h : lm.Tracks m) (hk : m.code.Keeps m'.code L) (hs : m'.strict = m.strict)
    (hperm : (m'.pending ++ L).Perm (m.pending ++ N))
    (hN : ∀ s ∈ N, m.code.size ≤ s ∧ m'.code.BranchAt s) (hnd : N.Nodup)
    (hm : lm'.Matches m'.code m'.flow m'.handlers) {J : List Jump}
    (hj : lm'.jumps = lm.jumps ++ J) (hJ : ∀ j ∈ J, j.Lands m'.code m'.pending) {A : List Nat}
    (hl : lm'.labels = lm.labels ++ A)
    (hA : ∀ a ∈ A, (a, Instruction.simple SimpleOp.label) ∈ m'.code.layout) : lm'.Tracks m' := by
  -- a branch pending after the step, or landed by it, was pending before or is new
  have hwas : ∀ s ∈ m'.pending ++ L, s ∈ m.pending ∨ m.code.size ≤ s := fun s hs' => by
    rcases List.mem_append.mp (hperm.subset hs') with hs' | hs'
    · exact .inl hs'
    · exact .inr (hN s hs').1
  have hnodup := h.nodup_after hperm (fun s hs' => (hN s hs').1) hnd
  refine ⟨hs.trans h.strict, ⟨hk.laid, fun s hs' => ?_⟩,
    hnodup.sublist (List.sublist_append_left _ _), hm, fun j hj' => ?_, fun a ha => ?_⟩
  · rcases List.mem_append.mp (hperm.subset (List.mem_append_left L hs')) with hs' | hs'
    · exact hk.branchAt (h.laid.pending s hs')
    · exact (hN s hs').2
  · rw [hj] at hj'
    rcases List.mem_append.mp hj' with hj' | hj'
    · exact (h.jumps j hj').keeps h.laid.code hk (fun q hq => hwas q (List.mem_append_right _ hq))
        fun s hs' => hwas s (List.mem_append_left _ hs')
    · exact hJ j hj'
  · rw [hl] at ha
    rcases List.mem_append.mp ha with ha | ha
    · exact hk.mem (h.labels a ha) rfl
    · exact hA a ha

/-- A step that lands one pending branch `s`, the last jump of the intent's span `sp₀`, on the
address where the code ends, and drops it from the pending ones, keeps the method tracked with
that jump landed, once the constructs match. -/
theorem Tracks.landHere (h : lm.Tracks m) {s : Nat} {sp₀ : Span} (hs : s ∈ m.pending)
    (hj₀ : m.code.JumpAt sp₀ s) (hv : S24.Fits ((m.code.size : Int) - s - 4))
    (hcode : m'.code = m.code.setSlot (s + 1) ((m.code.size : Int) - s - 4))
    (hstrict : m'.strict = m.strict) (hperm : (m'.pending ++ [s]).Perm m.pending)
    (hm : lm'.Matches m'.code m'.flow m'.handlers)
    (hj : lm'.jumps = lm.jumps ++ [⟨sp₀, [m.code.size]⟩]) (hl : lm'.labels = lm.labels) :
    lm'.Tracks m' := by
  have hland := Buffer.keeps_landOne (h.laid.pending s hs) hv
  rw [← hcode] at hland
  have hperm' : (m'.pending ++ [s]).Perm (m.pending ++ []) := by
    rw [List.append_nil]
    exact hperm
  have hsz : m.code.size ≤ m'.code.size := by rw [hcode, Buffer.size_setSlot]
  refine h.step hland.1 hstrict hperm' (by simp) List.nodup_nil hm hj (fun j hj' => ?_)
    (hl.trans (List.append_nil _).symm) (by simp)
  rw [List.mem_singleton.mp hj']
  exact Jump.lands_of_jumpAt hj₀ hland.2 (List.mem_singleton_self _) hv hsz
    (h.not_pending hperm' (by simp) List.nodup_nil (List.mem_singleton_self _))

/-- **A step that writes and adds branches only into finally bodies keeps a method tracked**
with the same intent: the new branches are written past the old code, and the pending
constructs the intent follows stay as they were. -/
theorem Tracks.adds (h : lm.Tracks m) (ha : m.Adds m') : lm.Tracks m' := by
  have hk := ha.keeps h.laid.code
  obtain ⟨hs, hf, hr, -, A, hA, hc, N, hN, hnd, hmem⟩ := ha
  refine h.step (N := N) hk hs (by rw [List.append_nil]; exact hN) (fun s hs' => ?_) hnd ?_
    (List.append_nil _).symm (by simp) (List.append_nil _).symm (by simp)
  · obtain ⟨op, d, hp⟩ := hmem s hs'
    refine ⟨(MethodState.le_of_mem_place hA hp).1, ?_⟩
    obtain ⟨insts, hi⟩ := h.laid.code
    refine ⟨insts ++ A, hc ▸ hi.append hA, op, d, ?_⟩
    rw [Instruction.place_append, Nat.zero_add, ← hi.size]
    exact List.mem_append_right _ hp
  · rw [hf]
    exact (h.agrees.keeps hk).sameRegions hr

end MethodIntent

end Emit

end AbcKit
