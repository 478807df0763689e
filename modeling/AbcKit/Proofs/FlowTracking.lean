import AbcKit.Proofs.CallSites
/-!
Each call that opens, lands or closes an if, an else, a loop, a labelled block or a switch keeps
the innermost method tracked by its intent, stepped by the call over the code it wrote.

Every lemma takes a tracked method `m`, innermost in an emitter, and a call that succeeds on it;
it names the method `m'` the call leaves and shows `(lm.step sp c).Tracks m'`, where `sp` runs
from `m`'s code size to `m'`'s, and that the call keeps `m`'s code and only enters regions from
call sites (`MethodState.Proceeds`). A call under strict ordering finds what it expects, since an
out-of-order call aborts: the pending if that `else_branch` or `patch_if` lands, the frame its
index names. The intent matches the method, so the span it keeps for what the call lands is the
span whose last jump the call patches. With coverage records on, a conditional branch comes after
the records of both ways and the jumps between them, all landed within the call (`covered_ok`),
so it is still the call's last jump.
-/
namespace AbcKit.Emit

open MethodState

variable {lm : MethodIntent} {m : MethodState} {rest : List MethodState} {e e' : Emitter}

namespace Emitter

/-- landing a branch of the innermost method's code where the code ends keeps the code with that
branch landed, and leaves the method's flow and regions as they were -/
theorem patchHere_keeps {site : Nat} (hm : e.methods = m :: rest) (hb : m.code.BranchAt site)
    (h : patchHere site e = .ok () e') :
    ∃ m', e'.methods = m' :: rest ∧ m.code.Keeps m'.code [site] ∧ m'.code.size = m.code.size ∧
      m'.strict = m.strict ∧ m'.flow = m.flow ∧ m'.handlers = m.handlers := by
  obtain ⟨m₀, rest₀, m', hm₀, hact, rfl⟩ := onMethod_ok h
  rw [hm] at hm₀
  cases hm₀
  obtain ⟨hv, rfl⟩ := MethodM.patchHere_ok hact
  exact ⟨_, rfl, Buffer.keeps_setSlot hb hv, Buffer.size_setSlot _ _ _, rfl, rfl, rfl⟩

/-- The first part of a branch with coverage on: the branch, taken to a hook call, and a jump
over that call, past which the branch lands. The code keeps the old code with the branch, at
`taken`, landed; the jump, at `skip`, is left to land. -/
theorem covered_ok {α : Type} {op : BranchOp} {K : Nat → EmitM α} {x : α}
    (hm : e.methods = m :: rest) (hl : m.code.Laid)
    (h : (reserve op >>= fun taken => do
      coverageRecord false
      let skip ← reserve BranchOp.jump
      patchHere taken
      discard label
      coverageRecord true
      K skip) e = .ok x e') :
    ∃ e₁ m₁ taken skip, e₁.methods = m₁ :: rest ∧ m₁.strict = m.strict ∧ m₁.flow = m.flow ∧
      m₁.handlers = m.handlers ∧ m.code.Keeps m₁.code [taken] ∧ m.code.size ≤ taken ∧
      taken < skip ∧ m₁.code.BranchAt taken ∧ m₁.code.BranchAt skip ∧ K skip e₁ = .ok x e' := by
  obtain ⟨taken, e₁, h₁, h⟩ := EStateM.bind_eq_ok.mp h
  obtain ⟨-, m₁, hm₁, hemit₁⟩ := reserve_innermost h₁ hm
  obtain ⟨_, e₂, h₂, h⟩ := EStateM.bind_eq_ok.mp h
  obtain ⟨-, m₂, hm₂, hw₂⟩ := writes_innermost (coverageRecord_writes false) h₂ hm₁
  obtain ⟨skip, e₃, h₃, h⟩ := EStateM.bind_eq_ok.mp h
  obtain ⟨-, m₃, hm₃, hemit₃⟩ := reserve_innermost h₃ hm₂
  obtain ⟨_, e₄, h₄, h⟩ := EStateM.bind_eq_ok.mp h
  have hk₁ := hemit₁.keeps hl
  have hk₁₂ := hw₂.keeps hk₁.laid
  have hk₂ := hk₁.trans hk₁₂
  have hk₃ := hk₂.trans (hemit₃.keeps hk₂.laid)
  have hb₃ : m₃.code.BranchAt taken :=
    (hemit₃.keeps hk₂.laid).branchAt (hk₁₂.branchAt (hemit₁.branchAt hl))
  obtain ⟨m₄, hm₄, hk₄, -, hs₄, hf₄, hh₄⟩ := patchHere_keeps hm₃ hb₃ h₄
  obtain ⟨_, e₅, h₅, h⟩ := EStateM.bind_eq_ok.mp h
  obtain ⟨-, m₅, hm₅, hw₅⟩ := writes_innermost label_writes.discard h₅ hm₄
  obtain ⟨_, e₆, h₆, h⟩ := EStateM.bind_eq_ok.mp h
  obtain ⟨-, m₆, hm₆, hw₆⟩ := writes_innermost (coverageRecord_writes true) h₆ hm₅
  have hk₆ := (hk₄.trans (hw₅.keeps hk₄.laid)).trans (hw₆.keeps (hk₄.trans (hw₅.keeps hk₄.laid)).laid)
  refine ⟨e₆, m₆, taken, skip, hm₆, ?_, ?_, ?_, (hk₃.trans hk₆).mono (by simp),
    hemit₁.lt_size.1, ?_, hk₆.branchAt hb₃, hk₆.branchAt (hemit₃.branchAt hk₂.laid), h⟩
  · rw [hw₆.strict, hw₅.strict, hs₄, hemit₃.strict, hw₂.strict, hemit₁.strict]
  · rw [hw₆.flow, hw₅.flow, hf₄, hemit₃.flow, hw₂.flow, hemit₁.flow]
  · rw [hw₆.handlers, hw₅.handlers, hh₄, hemit₃.handlers, hw₂.handlers, hemit₁.handlers]
  · have := hemit₁.lt_size.2
    have := hk₁₂.size
    have := hemit₃.lt_size.1
    omega

/-- A conditional branch keeps the code; with coverage on, the two jumps of its own written before
the branch, at `L`, are landed. The branch, at `site`, is the last jump of the code it wrote. -/
theorem conditional_keeps {op : BranchOp} {site : Nat} (hm : e.methods = m :: rest)
    (hl : m.code.Laid) (h : conditional op e = .ok site e') :
    ∃ m', e'.methods = m' :: rest ∧ m'.strict = m.strict ∧ m'.flow = m.flow ∧
      m'.handlers = m.handlers ∧ ∃ L, m.code.Keeps m'.code L ∧
        (∀ s ∈ L, m.code.size ≤ s ∧ s < site ∧ m'.code.BranchAt s) ∧ L.Nodup ∧
        m.code.size ≤ site ∧ m'.code.BranchAt site ∧ m'.code.JumpAt ⟨m.code.size, m'.code.size⟩ site := by
  unfold conditional at h
  obtain ⟨_, _, ⟨⟩, h⟩ := EStateM.bind_eq_ok.mp h
  split at h
  · obtain ⟨-, m', hm', hemit⟩ := reserve_innermost h hm
    exact ⟨m', hm', hemit.strict, hemit.flow, hemit.handlers, [], hemit.keeps hl, by simp,
      .nil, hemit.lt_size.1, hemit.branchAt hl, hemit.jumpAt hl le_rfl⟩
  obtain ⟨e₁, m₁, taken, skip, hm₁, hs₁, hf₁, hh₁, hk₁, htaken, hskip, hbt, hbs, h⟩ :=
    covered_ok hm hl h
  obtain ⟨target, e₂, h₂, h⟩ := EStateM.bind_eq_ok.mp h
  obtain ⟨-, m₂, hm₂, hemit⟩ := reserve_innermost h₂ hm₁
  obtain ⟨_, e₃, h₃, h⟩ := EStateM.bind_eq_ok.mp h
  have hk₂ := hemit.keeps hk₁.laid
  obtain ⟨m₃, hm₃, hk₃, hsz₃, hs₃, hf₃, hh₃⟩ := patchHere_keeps hm₂ (hk₂.branchAt hbs) h₃
  obtain ⟨_, e₄, h₄, h⟩ := EStateM.bind_eq_ok.mp h
  obtain ⟨-, m', hm', hw⟩ := writes_innermost label_writes.discard h₄ hm₃
  cases h
  have hk' := hk₃.trans (hw.keeps hk₃.laid)
  have hlt := hbs.lt_size
  have hsite := hemit.lt_size.1
  refine ⟨m', hm', ?_, ?_, ?_, [taken, skip], ((hk₁.trans hk₂).trans hk').mono (by simp),
    fun s hs => ?_, by simp; omega, hk₁.size.trans hsite, hk'.branchAt (hemit.branchAt hk₁.laid), ?_⟩
  · rw [hw.strict, hs₃, hemit.strict, hs₁]
  · rw [hw.flow, hf₃, hemit.flow, hf₁]
  · rw [hw.handlers, hh₃, hemit.handlers, hh₁]
  · have hb : ∀ s, m₁.code.BranchAt s → m'.code.BranchAt s := fun s hb =>
      hk'.branchAt (hk₂.branchAt hb)
    simp only [List.mem_cons, List.not_mem_nil, or_false] at hs
    rcases hs with rfl | rfl
    · exact ⟨htaken, by omega, hb _ hbt⟩
    · exact ⟨by omega, by omega, hb _ hbs⟩
  · have hj := (hemit.jumpAt hk₁.laid hk₁.size).keeps hk₃
    rw [← hsz₃] at hj
    exact hw.jumpAt hk₃.laid hj

/-! ## If and else -/

theorem ifBranch_tracks {op : BranchOp} (h : lm.Tracks m) (hm : e.methods = m :: rest)
    (he : ifBranch op e = .ok () e') :
    ∃ m', e'.methods = m' :: rest ∧ m.Proceeds e'.assembler.pool m' ∧
      (lm.step ⟨m.code.size, m'.code.size⟩ (.ifBranch op)).Tracks m' := by
  unfold ifBranch at he
  obtain ⟨site, e₁, h₁, he⟩ := EStateM.bind_eq_ok.mp he
  obtain ⟨m₁, hm₁, hs₁, hf₁, hh₁, L, hk, hL, hnd, hsite, hb, hj⟩ :=
    conditional_keeps hm h.laid.code h₁
  obtain ⟨m₀, rest₀, hm₀, rfl⟩ := onMethod_modify_ok he
  rw [hm₁] at hm₀
  cases hm₀
  refine ⟨_, rfl, .of_keeps hk hh₁, ?_⟩
  have hold : lm.Matches m₁.code m₁.flow m₁.handlers := by
    rw [hf₁, hh₁]
    exact h.agrees.keeps hk
  refine h.step (L := L) (N := L ++ [site]) hk hs₁ ?_ (fun s hs => ?_) ?_
    ⟨.cons hj hold.ifs, hold.elses, hold.frames, hold.regions⟩
    (List.append_nil _).symm (by simp) (List.append_nil _).symm (by simp)
  · rw [List.perm_iff_count]
    intro a
    simp only [MethodState.pending, hf₁, hh₁, List.map_cons, List.count_append,
      List.count_cons, List.count_nil]
    omega
  · rcases List.mem_append.mp hs with hs | hs
    · exact ⟨(hL s hs).1, (hL s hs).2.2⟩
    · rw [List.mem_singleton.mp hs]
      exact ⟨hsite, hb⟩
  · refine List.nodup_append.mpr ⟨hnd, List.nodup_singleton _, fun a ha b hb => ?_⟩
    rw [List.mem_singleton.mp hb]
    exact Nat.ne_of_lt (hL a ha).2.1

theorem elseBranch_tracks (h : lm.Tracks m) (hm : e.methods = m :: rest)
    (he : elseBranch e = .ok () e') :
    ∃ m', e'.methods = m' :: rest ∧ m.Proceeds e'.assembler.pool m' ∧
      (lm.step ⟨m.code.size, m'.code.size⟩ .elseBranch).Tracks m' := by
  unfold elseBranch at he
  obtain ⟨jump, e₁, h₁, he⟩ := EStateM.bind_eq_ok.mp he
  obtain ⟨-, m₁, hm₁, hemit⟩ := reserve_innermost h₁ hm
  obtain ⟨m₀, rest₀, m', hm₀, hact, rfl⟩ := onMethod_ok he
  rw [hm₁] at hm₀
  cases hm₀
  refine ⟨m', rfl, ?_⟩
  have hk₁ := hemit.keeps h.laid.code
  obtain ⟨_, _, ⟨⟩, hact⟩ := EStateM.bind_eq_ok.mp hact
  -- under strict ordering an if is pending
  obtain ⟨frame, ifs, hifs⟩ : ∃ frame ifs, m₁.flow.ifs = frame :: ifs := by
    cases hifs : m₁.flow.ifs with
    | nil =>
      rw [hifs] at hact
      exact (MethodM.violation_strict (hemit.strict.trans h.strict) hact).elim
    | cons frame ifs => exact ⟨frame, ifs, rfl⟩
  rw [hifs] at hact
  dsimp only at hact
  obtain ⟨_, _, ⟨⟩, hact⟩ := EStateM.bind_eq_ok.mp hact
  obtain ⟨_, m₃, h₃, hact⟩ := EStateM.bind_eq_ok.mp hact
  obtain ⟨hv, rfl⟩ := MethodM.patchHere_ok h₃
  change S24.Fits ((m₁.code.size : Int) - frame.site - 4) at hv
  obtain ⟨_, _, ⟨⟩, hact⟩ := EStateM.bind_eq_ok.mp hact
  cases hact
  have hifs₀ : m.flow.ifs = frame :: ifs := by rw [← hemit.flow, hifs]
  have hpend : frame.site ∈ m.pending := by simp [MethodState.pending, hifs₀]
  have hland := Buffer.keeps_landOne (hk₁.branchAt (h.laid.pending _ hpend)) hv
  have hk : m.code.Keeps _ [frame.site] := hk₁.trans hland.1
  have hsz := Buffer.size_setSlot m₁.code (frame.site + 1) ((m₁.code.size : Int) - frame.site - 4)
  have hlm := h.agrees.ifs
  rw [hifs₀, List.map_cons] at hlm
  obtain ⟨sp₀, ifsI, hj₀, hifsI, hlmifs⟩ := List.forall₂_cons_right_iff.mp hlm
  simp only [MethodIntent.step, hlmifs]
  have hN : ∀ s ∈ [jump], m.code.size ≤ s := by simp [hemit.lt_size.1]
  have hjump : (m₁.code.setSlot (frame.site + 1) ((m₁.code.size : Int) - frame.site - 4)).JumpAt
      ⟨m.code.size, (m₁.code.setSlot (frame.site + 1) ((m₁.code.size : Int) - frame.site - 4)).size⟩
      jump := by
    rw [hsz]
    exact (hemit.jumpAt h.laid.code le_rfl).keeps hland.1
  have hperm : (({ m₁ with
      code := m₁.code.setSlot (frame.site + 1) ((m₁.code.size : Int) - frame.site - 4),
      depth := m₁.depth.setStack frame.depth,
      flow := { ifs := ifs, elses := ⟨jump, m₁.depth.stack⟩ :: m₁.flow.elses,
                loops := m₁.flow.loops } } : MethodState).pending ++ [frame.site]).Perm
      (m.pending ++ [jump]) := by
    rw [List.perm_iff_count]
    intro a
    simp only [MethodState.pending, ← hemit.flow, ← hemit.handlers, hifs, List.map_cons,
      List.count_append, List.count_cons, List.count_nil]
    omega
  refine ⟨.of_keeps hk hemit.handlers, ?_⟩
  refine h.step (L := [frame.site]) (N := [jump]) hk hemit.strict hperm
    (fun s hs => ?_) (List.nodup_singleton _) ⟨hifsI.imp fun _ _ hj => hj.keeps hk, ?_, ?_, ?_⟩ rfl
    (fun j hj => ?_) (List.append_nil _).symm (by simp)
  · rw [List.mem_singleton.mp hs]
    exact ⟨hemit.lt_size.1, hland.1.branchAt (hemit.branchAt h.laid.code)⟩
  · refine .cons hjump ?_
    rw [hemit.flow]
    exact h.agrees.elses.imp fun _ _ hj => hj.keeps hk
  · rw [hemit.flow]
    exact h.agrees.frames.imp fun _ _ hf => hf.keeps hk
  · rw [hemit.handlers]
    exact h.agrees.regions.imp fun _ _ hr => hr.keeps hk
  · rw [List.mem_singleton.mp hj, hsz]
    exact Jump.lands_of_jumpAt (hj₀.keeps hk₁) hland.2 (List.mem_singleton_self _) hv hsz.ge
      (h.not_pending hperm hN (List.nodup_singleton _) (List.mem_singleton_self _))

theorem patchIf_tracks (h : lm.Tracks m) (hm : e.methods = m :: rest)
    (he : patchIf e = .ok () e') :
    ∃ m', e'.methods = m' :: rest ∧ m.Proceeds e'.assembler.pool m' ∧
      (lm.step ⟨m.code.size, m'.code.size⟩ .patchIf).Tracks m' := by
  unfold patchIf at he
  obtain ⟨m₀, rest₀, m', hm₀, hact, rfl⟩ := onMethod_ok he
  rw [hm] at hm₀
  cases hm₀
  refine ⟨m', rfl, ?_⟩
  obtain ⟨_, _, ⟨⟩, hact⟩ := EStateM.bind_eq_ok.mp hact
  obtain ⟨frame, ifs, hifs⟩ : ∃ frame ifs, m.flow.ifs = frame :: ifs := by
    cases hifs : m.flow.ifs with
    | nil =>
      rw [hifs] at hact
      exact (MethodM.violation_strict h.strict hact).elim
    | cons frame ifs => exact ⟨frame, ifs, rfl⟩
  rw [hifs] at hact
  dsimp only at hact
  obtain ⟨_, _, ⟨⟩, hact⟩ := EStateM.bind_eq_ok.mp hact
  obtain ⟨_, m₃, h₃, hact⟩ := EStateM.bind_eq_ok.mp hact
  obtain ⟨hv, rfl⟩ := MethodM.patchHere_ok h₃
  change S24.Fits ((m.code.size : Int) - frame.site - 4) at hv
  have hsj := (MethodM.reconcile_keeps _).ok hact
  -- the innermost pending if of the intent is the span whose last jump is the branch landed
  have hlm := h.agrees.ifs
  rw [hifs, List.map_cons] at hlm
  obtain ⟨sp₀, ifsI, hj₀, hifsI, hlmifs⟩ := List.forall₂_cons_right_iff.mp hlm
  simp only [MethodIntent.step, hlmifs]
  have hpend : frame.site ∈ m.pending := by simp [MethodState.pending, hifs]
  have hk := (Buffer.keeps_landOne (h.laid.pending _ hpend) hv).1
  refine ⟨.of_keeps (L := [frame.site]) (by rw [hsj.code]; exact hk) hsj.handlers, ?_⟩
  refine h.landHere hpend hj₀ hv hsj.code hsj.strict ?_ ?_ rfl rfl
  · rw [pending_eq_of_eq hsj.flow hsj.handlers, List.perm_iff_count]
    intro a
    simp only [MethodState.pending, hifs, List.map_cons, List.count_append, List.count_cons,
      List.count_nil]
    omega
  · rw [hsj.code, hsj.flow, hsj.handlers]
    exact ⟨hifsI.imp fun _ _ hj => hj.keeps hk, h.agrees.elses.imp fun _ _ hj => hj.keeps hk,
      h.agrees.frames.imp fun _ _ hf => hf.keeps hk, h.agrees.regions.imp fun _ _ hr => hr.keeps hk⟩

theorem patchElse_tracks (h : lm.Tracks m) (hm : e.methods = m :: rest)
    (he : patchElse e = .ok () e') :
    ∃ m', e'.methods = m' :: rest ∧ m.Proceeds e'.assembler.pool m' ∧
      (lm.step ⟨m.code.size, m'.code.size⟩ .patchElse).Tracks m' := by
  unfold patchElse at he
  obtain ⟨m₀, rest₀, m', hm₀, hact, rfl⟩ := onMethod_ok he
  rw [hm] at hm₀
  cases hm₀
  refine ⟨m', rfl, ?_⟩
  obtain ⟨_, _, ⟨⟩, hact⟩ := EStateM.bind_eq_ok.mp hact
  obtain ⟨frame, elses, helses⟩ : ∃ frame elses, m.flow.elses = frame :: elses := by
    cases helses : m.flow.elses with
    | nil =>
      rw [helses] at hact
      exact (MethodM.violation_strict h.strict hact).elim
    | cons frame elses => exact ⟨frame, elses, rfl⟩
  rw [helses] at hact
  dsimp only at hact
  obtain ⟨_, _, ⟨⟩, hact⟩ := EStateM.bind_eq_ok.mp hact
  obtain ⟨_, m₃, h₃, hact⟩ := EStateM.bind_eq_ok.mp hact
  obtain ⟨hv, rfl⟩ := MethodM.patchHere_ok h₃
  change S24.Fits ((m.code.size : Int) - frame.site - 4) at hv
  have hsj := (MethodM.reconcile_keeps _).ok hact
  have hlm := h.agrees.elses
  rw [helses, List.map_cons] at hlm
  obtain ⟨sp₀, elsesI, hj₀, helsesI, hlmelses⟩ := List.forall₂_cons_right_iff.mp hlm
  simp only [MethodIntent.step, hlmelses]
  have hpend : frame.site ∈ m.pending := by simp [MethodState.pending, helses]
  have hk := (Buffer.keeps_landOne (h.laid.pending _ hpend) hv).1
  refine ⟨.of_keeps (L := [frame.site]) (by rw [hsj.code]; exact hk) hsj.handlers, ?_⟩
  refine h.landHere hpend hj₀ hv hsj.code hsj.strict ?_ ?_ rfl rfl
  · rw [pending_eq_of_eq hsj.flow hsj.handlers, List.perm_iff_count]
    intro a
    simp only [MethodState.pending, helses, List.map_cons, List.count_append, List.count_cons,
      List.count_nil]
    omega
  · rw [hsj.code, hsj.flow, hsj.handlers]
    exact ⟨h.agrees.ifs.imp fun _ _ hj => hj.keeps hk, helsesI.imp fun _ _ hj => hj.keeps hk,
      h.agrees.frames.imp fun _ _ hf => hf.keeps hk, h.agrees.regions.imp fun _ _ hr => hr.keeps hk⟩

/-! ## Opening frames -/

/-- opening a frame appends it to the open method's frames, at the method's depths -/
theorem pushFrame_ok {kind : FrameKind} {entry top : Option Nat} {i : Nat}
    (hm : e.methods = m :: rest) (h : pushFrame kind entry top e = .ok i e') :
    e'.methods = { m with flow := { m.flow with loops := m.flow.loops ++
      [{ kind, entry, top, stackDepth := m.depth.stack, scopeDepth := m.depth.scope }] } } :: rest := by
  obtain ⟨m₀, rest₀, m', hm₀, hact, rfl⟩ := onMethod_ok h
  rw [hm] at hm₀
  cases hm₀
  obtain ⟨_, _, ⟨⟩, hact⟩ := EStateM.bind_eq_ok.mp hact
  obtain ⟨_, _, ⟨⟩, hact⟩ := EStateM.bind_eq_ok.mp hact
  cases hact
  rfl

theorem label_bytes : (Instruction.simple SimpleOp.label).bytes.length = 1 := by decide

end Emitter

/-- Opening a frame `f` after steps that only wrote, with the intent's frame `fi` tracking it,
keeps the method tracked: the frame's pending entry jump, if any, was written by the call. -/
theorem MethodIntent.Tracks.openFrame {m₂ : MethodState} (h : lm.Tracks m)
    (hk : m.code.Keeps m₂.code []) (hs : m₂.strict = m.strict) (hflow : m₂.flow = m.flow)
    (hh : m₂.handlers = m.handlers) {fi : FrameIntent} {f : LoopFrame} (hfi : fi.Tracks m₂.code f)
    (hN : ∀ s ∈ f.pending, m.code.size ≤ s ∧ m₂.code.BranchAt s) (hnd : f.pending.Nodup)
    {labels A : List Nat} (hl : labels = lm.labels ++ A)
    (hA : ∀ a ∈ A, (a, Instruction.simple SimpleOp.label) ∈ m₂.code.layout) :
    { lm with frames := lm.frames ++ [fi], labels := labels }.Tracks
      { m₂ with flow := { m₂.flow with loops := m₂.flow.loops ++ [f] } } := by
  have hold := h.agrees.keeps hk
  rw [← hflow, ← hh] at hold
  refine h.step (L := []) hk hs ?_ hN hnd
    ⟨hold.ifs, hold.elses, List.rel_append hold.frames (.cons hfi .nil), hold.regions⟩
    (List.append_nil _).symm (by simp) hl hA
  rw [List.perm_iff_count]
  intro a
  simp only [MethodState.pending, hflow, hh, List.flatMap_append, List.flatMap_singleton,
    List.count_append, List.append_nil]
  omega

namespace Emitter

theorem loopBegin_tracks (h : lm.Tracks m) (hm : e.methods = m :: rest) {i : Nat}
    (he : loopBegin e = .ok i e') :
    ∃ m', e'.methods = m' :: rest ∧ m.Proceeds e'.assembler.pool m' ∧
      (lm.step ⟨m.code.size, m'.code.size⟩ .loopBegin).Tracks m' := by
  unfold loopBegin at he
  obtain ⟨entry, e₁, h₁, he⟩ := EStateM.bind_eq_ok.mp he
  obtain ⟨-, m₁, hm₁, hemit₁⟩ := reserve_innermost h₁ hm
  obtain ⟨top, e₂, h₂, he⟩ := EStateM.bind_eq_ok.mp he
  obtain ⟨-, m₀, rest₀, m₂, hm₀, hm₂, hemit₂⟩ := emit_emits h₂
  rw [hm₁] at hm₀
  cases hm₀
  have hk₁ := hemit₁.keeps h.laid.code
  have hk := hk₁.trans (hemit₂.keeps hk₁.laid)
  refine ⟨_, pushFrame_ok hm₂ he, .of_keeps hk (hemit₂.handlers.trans hemit₁.handlers), ?_⟩
  have hsize : m₂.code.size = top + 1 := by rw [hemit₂.size, label_bytes]
  have hjump := (hemit₂.writes rfl).jumpAt hk₁.laid (hemit₁.jumpAt h.laid.code le_rfl)
  refine h.openFrame hk (hemit₂.strict.trans hemit₁.strict) (hemit₂.flow.trans hemit₁.flow)
    (hemit₂.handlers.trans hemit₁.handlers)
    ⟨rfl, .some hjump, by rw [hsize, Nat.add_sub_cancel], .nil, .nil, rfl, rfl, by simp, by simp⟩
    (fun s hs => ?_) (by simp [LoopFrame.pending]) rfl (fun a ha => ?_)
  · simp only [LoopFrame.pending, Option.toList_some, List.append_nil, List.mem_singleton] at hs
    subst hs
    exact ⟨hemit₁.lt_size.1, (hemit₂.keeps hk₁.laid).branchAt (hemit₁.branchAt h.laid.code)⟩
  · rw [List.mem_singleton.mp ha, hsize, Nat.add_sub_cancel]
    exact hemit₂.mem_layout hk₁.laid

theorem doLoopBegin_tracks (h : lm.Tracks m) (hm : e.methods = m :: rest) {i : Nat}
    (he : doLoopBegin e = .ok i e') :
    ∃ m', e'.methods = m' :: rest ∧ m.Proceeds e'.assembler.pool m' ∧
      (lm.step ⟨m.code.size, m'.code.size⟩ .doLoopBegin).Tracks m' := by
  unfold doLoopBegin at he
  obtain ⟨top, e₂, h₂, he⟩ := EStateM.bind_eq_ok.mp he
  obtain ⟨-, m₀, rest₀, m₂, hm₀, hm₂, hemit₂⟩ := emit_emits h₂
  rw [hm] at hm₀
  cases hm₀
  refine ⟨_, pushFrame_ok hm₂ he, .of_keeps (hemit₂.keeps h.laid.code) hemit₂.handlers, ?_⟩
  have hsize : m₂.code.size = top + 1 := by rw [hemit₂.size, label_bytes]
  refine h.openFrame (hemit₂.keeps h.laid.code) hemit₂.strict hemit₂.flow hemit₂.handlers
    ⟨rfl, .none, by rw [hsize, Nat.add_sub_cancel], .nil, .nil, rfl, rfl, by simp, by simp⟩
    (by simp [LoopFrame.pending]) (by simp [LoopFrame.pending]) rfl (fun a ha => ?_)
  rw [List.mem_singleton.mp ha, hsize, Nat.add_sub_cancel]
  exact hemit₂.mem_layout h.laid.code

theorem labelBegin_tracks (h : lm.Tracks m) (hm : e.methods = m :: rest) {i : Nat}
    (he : labelBegin e = .ok i e') :
    ∃ m', e'.methods = m' :: rest ∧ m.Proceeds e'.assembler.pool m' ∧
      (lm.step ⟨m.code.size, m'.code.size⟩ .labelBegin).Tracks m' :=
  ⟨_, pushFrame_ok hm he, .of_keeps (.refl h.laid.code) rfl, h.openFrame (.refl h.laid.code) rfl rfl rfl
    ⟨rfl, .none, rfl, .nil, .nil, rfl, rfl, by simp, by simp⟩ (by simp [LoopFrame.pending])
    (by simp [LoopFrame.pending]) (List.append_nil _).symm (by simp)⟩

theorem switchBegin_tracks (h : lm.Tracks m) (hm : e.methods = m :: rest) {i : Nat}
    (he : switchBegin e = .ok i e') :
    ∃ m', e'.methods = m' :: rest ∧ m.Proceeds e'.assembler.pool m' ∧
      (lm.step ⟨m.code.size, m'.code.size⟩ .switchBegin).Tracks m' := by
  unfold switchBegin at he
  obtain ⟨entry, e₁, h₁, he⟩ := EStateM.bind_eq_ok.mp he
  obtain ⟨-, m₁, hm₁, hemit₁⟩ := reserve_innermost h₁ hm
  refine ⟨_, pushFrame_ok hm₁ he, .of_keeps (hemit₁.keeps h.laid.code) hemit₁.handlers, ?_⟩
  refine h.openFrame (hemit₁.keeps h.laid.code) hemit₁.strict hemit₁.flow hemit₁.handlers
    ⟨rfl, .some (hemit₁.jumpAt h.laid.code le_rfl), rfl, .nil, .nil, rfl, rfl, by simp, by simp⟩
    (fun s hs => ?_) (by simp [LoopFrame.pending]) (List.append_nil _).symm (by simp)
  simp only [LoopFrame.pending, Option.toList_some, List.append_nil, List.mem_singleton] at hs
  subst hs
  exact ⟨hemit₁.lt_size.1, hemit₁.branchAt h.laid.code⟩

theorem onFrame_ok {index : Nat} {r : Option LoopFrame} (hm : e.methods = m :: rest)
    (hs : m.strict = true) (h : onMethod (fun _ => frame index) e = .ok r e') :
    e' = e ∧ ∃ f, m.flow.loops[index]? = some f ∧ r = some f := by
  obtain ⟨m₀, rest₀, m', hm₀, hact, rfl⟩ := onMethod_ok h
  rw [hm] at hm₀
  cases hm₀
  obtain ⟨rfl, f, hf, rfl⟩ := MethodM.frame_ok hs hact
  refine ⟨?_, f, hf, rfl⟩
  rw [← hm]

end Emitter

/-- a branch to a known address: its displacement fits, and it is written where the code ends -/
theorem MethodM.branchTo_ok {pool : Pool} {op : BranchOp} {target : Nat} {m' : MethodState}
    (h : MethodM.branchTo pool op target m = .ok () m') :
    S24.Fits ((target : Int) - (m.code.size + 4)) ∧
      m.Emits (.branch op (Int32.ofInt ((target : Int) - (m.code.size + 4)))) m.code.size m' := by
  unfold MethodM.branchTo MethodM.displacement at h
  obtain ⟨_, _, ⟨⟩, h⟩ := EStateM.bind_eq_ok.mp h
  obtain ⟨d, m₂, h₂, h⟩ := EStateM.bind_eq_ok.mp h
  split at h₂
  · next hv =>
    cases h₂
    obtain ⟨site, hemit, -⟩ := EStateM.map_eq_ok h
    obtain ⟨rfl, -⟩ := MethodM.emit_ok hemit
    exact ⟨hv, MethodM.emit_emits hemit⟩
  · cases h₂

/-- Landing the pending entry jump of frame `index` where the code ends, and clearing it from the
frame, lands the jump the intent keeps for it. -/
theorem MethodIntent.Tracks.landEntry {m' : MethodState} (h : lm.Tracks m) {index : Nat}
    {f : LoopFrame} {entry : Nat} (hf : m.flow.loops[index]? = some f) (hentry : f.entry = some entry)
    (hv : S24.Fits ((m.code.size : Int) - entry - 4))
    (hcode : m'.code = m.code.setSlot (entry + 1) ((m.code.size : Int) - entry - 4))
    (hs : m'.strict = m.strict)
    (hflow : m'.flow = { m.flow with
      loops := m.flow.loops.modify index fun f => { f with entry := none } })
    (hh : m'.handlers = m.handlers) {q : Pool} :
    m.Proceeds q m' ∧ (lm.landEntry index m.code.size).Tracks m' := by
  obtain ⟨fi, hfi, hft⟩ := Option.Rel.exists_of_some_right
    (hf ▸ List.Forall₂.getElem?_rel h.agrees.frames index)
  obtain ⟨sp₀, hfe, hj₀⟩ := Option.Rel.exists_of_some_right (hentry ▸ hft.entry)
  have hpend : entry ∈ m.pending := by
    simp only [MethodState.pending, List.mem_append, List.mem_flatMap]
    exact .inl (.inr ⟨f, List.mem_of_getElem? hf, by simp [LoopFrame.pending, hentry]⟩)
  have hk := (Buffer.keeps_landOne (h.laid.pending _ hpend) hv).1
  rw [← hcode] at hk
  obtain ⟨kind, fentry, top, breaks, continues, cases, defaultCase⟩ := fi
  simp only at hfe
  subst hfe
  simp only [MethodIntent.landEntry, hfi]
  refine ⟨.of_keeps hk hh, h.landHere hpend hj₀ hv hcode hs ?_ ?_ rfl rfl⟩
  · -- the frame's entry leaves the pending branches
    have hmod := List.perm_iff_count.mp (List.perm_flatMap_modify (P := LoopFrame.pending)
      (X := [entry]) (Y := []) (g := fun f => { f with entry := none }) hf
      (by simp [LoopFrame.pending, hentry, List.perm_iff_count, List.count_cons]; omega))
    rw [List.perm_iff_count]
    intro a
    have := hmod a
    simp only [MethodState.pending, hflow, hh, List.count_append, List.append_nil] at this ⊢
    omega
  · rw [hflow, hh]
    have hold := h.agrees.keeps hk
    exact ⟨hold.ifs, hold.elses, List.Forall₂.modify (f := fun fi => { fi with entry := none })
      (g := fun f => { f with entry := none }) hold.frames (fun _ _ ht => { ht with entry := .none })
      index, hold.regions⟩

namespace Emitter

theorem patchLoopBegin_tracks (h : lm.Tracks m) (hm : e.methods = m :: rest) {index : Nat}
    (he : patchLoopBegin index e = .ok () e') :
    ∃ m', e'.methods = m' :: rest ∧ m.Proceeds e'.assembler.pool m' ∧
      (lm.step ⟨m.code.size, m'.code.size⟩ (.patchLoopBegin index)).Tracks m' := by
  unfold patchLoopBegin at he
  obtain ⟨m₀, rest₀, m', hm₀, hact, rfl⟩ := onMethod_ok he
  rw [hm] at hm₀
  cases hm₀
  refine ⟨m', rfl, ?_⟩
  obtain ⟨r, m₁, h₁, hact⟩ := EStateM.bind_eq_ok.mp hact
  obtain ⟨rfl, f, hf, rfl⟩ := MethodM.frame_ok h.strict h₁
  dsimp only at hact
  obtain ⟨_, _, ⟨⟩, hact⟩ := EStateM.bind_eq_ok.mp hact
  cases hentry : f.entry with
  | none =>
    rw [hentry] at hact
    dsimp only at hact
    refine (MethodM.violation_strict ?_ hact).elim
    exact h.strict
  | some entry =>
    rw [hentry] at hact
    obtain ⟨hv, rfl⟩ := MethodM.patchHere_ok hact
    refine h.landEntry hf hentry hv ?_ ?_ ?_ ?_ <;> rfl

theorem switchTable_tracks (h : lm.Tracks m) (hm : e.methods = m :: rest) {index : Nat}
    (he : switchTable index e = .ok () e') :
    ∃ m', e'.methods = m' :: rest ∧ m.Proceeds e'.assembler.pool m' ∧
      (lm.step ⟨m.code.size, m'.code.size⟩ (.switchTable index)).Tracks m' := by
  unfold switchTable at he
  obtain ⟨m₀, rest₀, m', hm₀, hact, rfl⟩ := onMethod_ok he
  rw [hm] at hm₀
  cases hm₀
  refine ⟨m', rfl, ?_⟩
  obtain ⟨r, m₁, h₁, hact⟩ := EStateM.bind_eq_ok.mp hact
  obtain ⟨rfl, f, hf, rfl⟩ := MethodM.frame_ok h.strict h₁
  dsimp only at hact
  obtain ⟨_, _, ⟨⟩, hact⟩ := EStateM.bind_eq_ok.mp hact
  obtain ⟨_, _, ⟨⟩, hact⟩ := EStateM.bind_eq_ok.mp hact
  cases hentry : f.entry with
  | none =>
    rw [hentry] at hact
    dsimp only at hact
    refine (MethodM.violation_strict ?_ hact).elim
    exact h.strict
  | some entry =>
    rw [hentry] at hact
    obtain ⟨hv, rfl⟩ := MethodM.patchHere_ok hact
    refine h.landEntry hf hentry hv ?_ ?_ ?_ ?_ <;> rfl

/-! ## Jumps back, out of and to the end of frames -/

/-- a branch back to `target`, written at `s` and no longer pending, lands there -/
theorem Jump.lands_back {c : Buffer} {P : List Nat} {sp : Span} {s target : Nat} {op : BranchOp}
    (hj : sp.lastJump c.layout = some (s, .branch op (Int32.ofInt ((target : Int) - (s + 4)))))
    (hv : S24.Fits ((target : Int) - (s + 4))) (hsp : sp.hi ≤ c.size) (hs : s ∉ P) :
    (⟨sp, [target]⟩ : Jump).Lands c P := by
  refine ⟨hsp, s, _, hj, hs, fun _ => ?_⟩
  simp only [Instruction.targets, Instruction.toInt_ofInt_of_fits hv, List.map_cons,
    List.map_nil, List.cons.injEq, and_true]
  omega

/-- a branch back to `target` writes the pending position records, then the branch where the code
ends, its displacement fitting -/
theorem branchBack_ok {op : BranchOp} {target : Nat} {u : Unit} (hm : e.methods = m :: rest)
    (h : branchBack op target e = .ok u e') :
    ∃ m₁ m', e'.methods = m' :: rest ∧ m.Writes m₁ ∧ S24.Fits ((target : Int) - (m₁.code.size + 4)) ∧
      m₁.Emits (.branch op (Int32.ofInt ((target : Int) - (m₁.code.size + 4)))) m₁.code.size m' := by
  unfold branchBack at h
  obtain ⟨_, e₁, h₁, h⟩ := EStateM.bind_eq_ok.mp h
  obtain ⟨-, m₁, hm₁, hw₁⟩ := writes_innermost flushPosition_writes h₁ hm
  obtain ⟨m₀, rest₀, m', hm₀, hact, rfl⟩ := onMethod_ok h
  rw [hm₁] at hm₀
  cases hm₀
  obtain ⟨hv, hemit⟩ := MethodM.branchTo_ok hact
  exact ⟨m₁, m', rfl, hw₁, hv, hemit⟩

theorem loopBack_tracks (h : lm.Tracks m) (hm : e.methods = m :: rest) {index : Nat}
    {op : BranchOp} (he : loopBack index op e = .ok () e') :
    ∃ m', e'.methods = m' :: rest ∧ m.Proceeds e'.assembler.pool m' ∧
      (lm.step ⟨m.code.size, m'.code.size⟩ (.loopBack index op)).Tracks m' := by
  unfold loopBack at he
  obtain ⟨r, e₁, h₁, he⟩ := EStateM.bind_eq_ok.mp he
  obtain ⟨rfl, f, hf, rfl⟩ := onFrame_ok hm h.strict h₁
  dsimp only at he
  cases htop : f.top with
  | none =>
    rw [htop] at he
    dsimp only at he
    exact (violation_ok hm h.strict he).elim
  | some top =>
  rw [htop] at he
  dsimp only at he
  obtain ⟨_, _, ⟨⟩, he⟩ := EStateM.bind_eq_ok.mp he
  obtain ⟨fi, hfi, hft⟩ := Option.Rel.exists_of_some_right
    (hf ▸ List.Forall₂.getElem?_rel h.agrees.frames index)
  obtain ⟨kind, entry, ftop, breaks, continues, cases, defaultCase⟩ := fi
  have htop' : ftop = some top := hft.top.trans htop
  subst htop'
  simp only [MethodIntent.step, hfi]
  split at he
  · -- one branch back, landed at once
    obtain ⟨m₂, m', hm', hw₂, hv, hemit⟩ := branchBack_ok hm he
    have h₂ := h.adds (Adds.of_writes hw₂)
    have hlo : m.code.size ≤ m₂.code.size := (Adds.of_writes hw₂).grows.code.size
    have hk := hemit.keeps h₂.laid.code
    have hpend : m'.pending = m₂.pending := pending_eq_of_eq hemit.flow hemit.handlers
    refine ⟨m', hm', .of_keeps (((Adds.of_writes hw₂).keeps h.laid.code).trans hk)
      (hemit.handlers.trans hw₂.handlers), ?_⟩
    refine h₂.step (L := []) (N := []) hk hemit.strict (by rw [hpend]) (by simp) List.nodup_nil
      ?_ rfl (fun j hj => ?_) (List.append_nil _).symm (by simp)
    · have hold := h₂.agrees.keeps hk
      rw [← hemit.flow, ← hemit.handlers] at hold
      exact ⟨hold.ifs, hold.elses, hold.frames, hold.regions⟩
    · rw [List.mem_singleton.mp hj]
      refine Jump.lands_back (hemit.lastJump h₂.laid.code rfl hlo) hv le_rfl fun hp => ?_
      have := h₂.laid.lt_size (hpend ▸ hp)
      omega
  · -- with coverage on, the branch is taken to a hook call and a jump back, and falls through to
    obtain ⟨e₁, m₁, taken, skip, hm₁, hs₁, hf₁, hh₁, hk₁, htaken, hskip, hbt, hbs, he⟩ :=
      covered_ok hm h.laid.code he
    obtain ⟨_, e₂, h₂, he⟩ := EStateM.bind_eq_ok.mp he
    obtain ⟨m₂, m₃, hm₃, hw₂, hv, hemit⟩ := branchBack_ok hm₁ h₂
    obtain ⟨_, e₄, h₄, he⟩ := EStateM.bind_eq_ok.mp he
    have hk₂ := hw₂.keeps hk₁.laid
    have hk₃ := hemit.keeps hk₂.laid
    obtain ⟨m₄, hm₄, hk₄, hsz₄, hs₄, hf₄, hh₄⟩ :=
      patchHere_keeps hm₃ (hk₃.branchAt (hk₂.branchAt hbs)) h₄
    obtain ⟨-, m', hm', hw⟩ := writes_innermost label_writes.discard he hm₄
    have hk' := hk₄.trans (hw.keeps hk₄.laid)
    have hk : m.code.Keeps m'.code [taken, skip] :=
      (((hk₁.trans hk₂).trans hk₃).trans hk').mono (by simp)
    have hflow : m'.flow = m.flow := by rw [hw.flow, hf₄, hemit.flow, hw₂.flow, hf₁]
    have hhs : m'.handlers = m.handlers := by
      rw [hw.handlers, hh₄, hemit.handlers, hw₂.handlers, hh₁]
    refine ⟨m', hm', .of_keeps hk hhs, ?_⟩
    have hpend : m'.pending = m.pending := pending_eq_of_eq hflow hhs
    -- the jump back is the last jump of the call's code; landing the jump over it keeps it
    have hlo : m.code.size ≤ m₂.code.size := (hk₁.trans hk₂).size
    have hskip₂ : skip < m₂.code.size := hbs.lt_size.trans_le hk₂.size
    obtain ⟨i', hlast₄, hr⟩ := hk₄.lastJump le_rfl (hemit.lastJump hk₂.laid rfl hlo)
    rw [(Prod.mk.inj (hr.eq_of_not_mem (by simp; omega))).2] at hlast₄
    have hlast := hw.lastJump hk₄.laid (hsz₄ ▸ hlast₄)
    have hold := h.agrees.keeps hk
    rw [← hflow, ← hhs] at hold
    refine h.step (L := [taken, skip]) (N := [taken, skip]) hk
      (by rw [hw.strict, hs₄, hemit.strict, hw₂.strict, hs₁]) (by rw [hpend]) (fun s hs => ?_)
      (by simp; omega) ⟨hold.ifs, hold.elses, hold.frames, hold.regions⟩ rfl (fun j hj => ?_)
      (List.append_nil _).symm (by simp)
    · have hb : ∀ s, m₁.code.BranchAt s → m'.code.BranchAt s := fun s hb =>
        hk'.branchAt (hk₃.branchAt (hk₂.branchAt hb))
      simp only [List.mem_cons, List.not_mem_nil, or_false] at hs
      rcases hs with rfl | rfl
      · exact ⟨htaken, hb _ hbt⟩
      · exact ⟨by omega, hb _ hbs⟩
    · rw [List.mem_singleton.mp hj]
      refine Jump.lands_back hlast hv le_rfl fun hp => ?_
      have := h.laid.lt_size (hpend ▸ hp)
      omega

/-- Leaving open frame `index` by a jump pending on it: the finally bodies passed and the scope
pops only write, and the jump is the last one the call writes. -/
theorem exitTo_tracks (h : lm.Tracks m) (hm : e.methods = m :: rest) {index : Nat}
    {f : LoopFrame} (hf : m.flow.loops[index]? = some f) {isBreak : Bool}
    (he : exitTo index isBreak e = .ok () e') :
    ∃ m', e'.methods = m' :: rest ∧ m.Proceeds e'.assembler.pool m' ∧ (lm.modifyFrame index fun fi =>
      if isBreak then { fi with breaks := fi.breaks ++ [⟨m.code.size, m'.code.size⟩] }
      else { fi with continues := fi.continues ++ [⟨m.code.size, m'.code.size⟩] }).Tracks m' := by
  unfold exitTo at he
  obtain ⟨m₀, e₀, h₀, he⟩ := EStateM.bind_eq_ok.mp he
  obtain ⟨rfl, rest₀, hm₀⟩ := current_ok h₀
  rw [hm] at hm₀
  cases hm₀
  obtain ⟨_, e₁, h₁, he⟩ := EStateM.bind_eq_ok.mp he
  obtain ⟨-, m₁, hm₁, ha₁⟩ := adds_innermost (unwind_adds _ _).discard h₁ hm
  obtain ⟨_, e₂, h₂, he⟩ := EStateM.bind_eq_ok.mp he
  obtain ⟨-, m₂, hm₂, hw₂⟩ := writes_innermost (popScopesTo_writes _) h₂ hm₁
  obtain ⟨site, e₃, h₃, he⟩ := EStateM.bind_eq_ok.mp he
  obtain ⟨-, m₃, hm₃, hemit⟩ := reserve_innermost h₃ hm₂
  obtain ⟨m₄, rest₄, m', hm₄, hact, rfl⟩ := onMethod_ok he
  rw [hm₃] at hm₄
  cases hm₄
  obtain ⟨_, _, ⟨⟩, hact⟩ := EStateM.bind_eq_ok.mp hact
  cases hact
  refine ⟨_, rfl, .of_enters ?_ h.laid.code, ?_⟩
  · -- leaving enters the regions passed; the scope pops and the jump only write
    have hen := ((unwind_enters _ _).discard (Q := fun _ => Inner fun m => m.code.Laid) _ () e₁
      (inner_of_head hm h.laid.code) h₁).1
    have hin := hen.methods
    rw [hm, hm₁] at hin
    obtain ⟨m₁', hm₁', hE₁⟩ := hin.of_cons_left
    cases List.cons.inj hm₁' |>.1
    refine ((hE₁.trans (.of_writes hw₂ _) ((popScopesTo_interns _).ok h₂).assembler.pool).trans
      (.of_emits hemit _) ((reserve_interns _).ok h₃).assembler.pool).trans (.of_same ?_ ?_ _)
      (.refl _) <;> rfl
  -- what leaving writes before the jump adds no pending branch the intent follows
  have ha₂ := ha₁.trans (Adds.of_writes hw₂)
  have h₂ : lm.Tracks m₂ := h.adds ha₂
  have hlo : m.code.size ≤ m₂.code.size := ha₂.grows.code.size
  have hk := hemit.keeps h₂.laid.code
  have hf₂ : m₂.flow.loops[index]? = some f := by rw [hw₂.flow, ha₁.flow, hf]
  have hjump : m₃.code.JumpAt ⟨m.code.size, m₃.code.size⟩ site := hemit.jumpAt h₂.laid.code hlo
  refine h₂.step (L := []) (N := [site]) hk hemit.strict ?_ ?_ (List.nodup_singleton _) ?_
    (List.append_nil _).symm (by simp) (List.append_nil _).symm (by simp)
  · have hmod := List.perm_iff_count.mp (List.perm_flatMap_modify (P := LoopFrame.pending)
      (X := []) (Y := [site]) (g := fun f => if isBreak then { f with breaks := f.breaks ++ [site] }
        else { f with continues := f.continues ++ [site] }) hf₂
      (by cases isBreak <;> simp [LoopFrame.pending, List.perm_iff_count, List.count_cons,
        List.count_append]))
    rw [List.perm_iff_count]
    intro a
    have := hmod a
    simp only [MethodState.pending, hemit.flow, hemit.handlers, List.count_append,
      List.append_nil] at this ⊢
    omega
  · intro s hs
    rw [List.mem_singleton.mp hs]
    exact ⟨hemit.lt_size.1, hemit.branchAt h₂.laid.code⟩
  · have hold := h₂.agrees.keeps hk
    rw [← hemit.flow, ← hemit.handlers] at hold
    refine ⟨hold.ifs, hold.elses, List.Forall₂.modify hold.frames (fun _ _ ht => ?_) index,
      hold.regions⟩
    cases isBreak
    · exact { ht with continues := List.rel_append ht.continues (.cons hjump .nil) }
    · exact { ht with breaks := List.rel_append ht.breaks (.cons hjump .nil) }

theorem continueLoop_tracks (h : lm.Tracks m) (hm : e.methods = m :: rest) {index : Nat}
    (he : continueLoop index e = .ok () e') :
    ∃ m', e'.methods = m' :: rest ∧ m.Proceeds e'.assembler.pool m' ∧
      (lm.step ⟨m.code.size, m'.code.size⟩ (.continueLoop index)).Tracks m' := by
  unfold continueLoop at he
  obtain ⟨r, e₁, h₁, he⟩ := EStateM.bind_eq_ok.mp he
  obtain ⟨rfl, f, hf, rfl⟩ := onFrame_ok hm h.strict h₁
  dsimp only at he
  split at he
  · obtain ⟨_, _, hv, _⟩ := EStateM.bind_eq_ok.mp he
    exact (violation_ok hm h.strict hv).elim
  · exact exitTo_tracks h hm hf he

theorem breakLoop_tracks (h : lm.Tracks m) (hm : e.methods = m :: rest) {index : Nat}
    (he : breakLoop index e = .ok () e') :
    ∃ m', e'.methods = m' :: rest ∧ m.Proceeds e'.assembler.pool m' ∧
      (lm.step ⟨m.code.size, m'.code.size⟩ (.breakLoop index)).Tracks m' := by
  unfold breakLoop at he
  obtain ⟨r, e₁, h₁, he⟩ := EStateM.bind_eq_ok.mp he
  obtain ⟨rfl, f, hf, rfl⟩ := onFrame_ok hm h.strict h₁
  dsimp only at he
  exact exitTo_tracks h hm hf he

theorem patchContinue_tracks (h : lm.Tracks m) (hm : e.methods = m :: rest) {index : Nat}
    (he : patchContinue index e = .ok () e') :
    ∃ m', e'.methods = m' :: rest ∧ m.Proceeds e'.assembler.pool m' ∧
      (lm.step ⟨m.code.size, m'.code.size⟩ (.patchContinue index)).Tracks m' := by
  unfold patchContinue at he
  obtain ⟨m₀, rest₀, m', hm₀, hact, rfl⟩ := onMethod_ok he
  rw [hm] at hm₀
  cases hm₀
  refine ⟨m', rfl, ?_⟩
  obtain ⟨r, m₁, h₁, hact⟩ := EStateM.bind_eq_ok.mp hact
  obtain ⟨hm₁, f, hf, rfl⟩ := MethodM.frame_ok h.strict h₁
  rw [hm₁] at hact
  dsimp only at hact
  obtain ⟨_, _, ⟨⟩, hact⟩ := EStateM.bind_eq_ok.mp hact
  dsimp only at hact
  obtain ⟨hv, rfl⟩ := MethodM.forM_patchHere_ok hact
  change ∀ s ∈ f.continues, S24.Fits ((m.code.size : Int) - s - 4) at hv
  obtain ⟨fi, hfi, hft⟩ := Option.Rel.exists_of_some_right
    (hf ▸ List.Forall₂.getElem?_rel h.agrees.frames index)
  simp only [MethodIntent.step, hfi]
  obtain ⟨insts, hi⟩ := h.laid.code
  have hland := Buffer.keeps_landAll hi fun s hs =>
    ⟨(List.Forall₂.exists_of_mem_right hft.continues hs).elim fun _ ⟨_, hj⟩ => hj.mem, hv s hs⟩
  have hperm : ((m.flow.loops.modify index fun f => { f with continues := [] }).flatMap
      LoopFrame.pending ++ f.continues).Perm (m.flow.loops.flatMap LoopFrame.pending ++ []) :=
    List.perm_flatMap_modify hf (by simp [LoopFrame.pending])
  have hperm' : ({ m with
      code := f.continues.foldl (fun c s => c.setSlot (s + 1) ((m.code.size : Int) - s - 4)) m.code,
      flow := { m.flow with loops := m.flow.loops.modify index fun f => { f with continues := [] } }
      } : MethodState).pending ++ f.continues |>.Perm (m.pending ++ []) := by
    rw [List.perm_iff_count]
    intro a
    have := List.perm_iff_count.mp hperm a
    simp only [MethodState.pending, List.count_append, List.append_nil] at this ⊢
    omega
  have hold := h.agrees.keeps hland.1
  refine ⟨.of_keeps hland.1 rfl, ?_⟩
  refine h.step (N := []) hland.1 rfl hperm' (by simp) List.nodup_nil
    ⟨hold.ifs, hold.elses, List.Forall₂.modify (f := fun (fi : FrameIntent) => { fi with continues := [] })
      (g := fun (f : LoopFrame) => { f with continues := [] }) hold.frames
      (fun _ _ ht => { ht with continues := .nil }) index, hold.regions⟩ rfl
    (Jump.toAll_lands hft.continues hland.2 (fun s hs => ⟨hs, hv s hs,
      h.not_pending hperm' (by simp) List.nodup_nil hs⟩) (Buffer.size_foldl_setSlot _ _).ge)
    (List.append_nil _).symm (by simp)

theorem patchBreak_tracks (h : lm.Tracks m) (hm : e.methods = m :: rest) {index : Nat}
    (he : patchBreak index e = .ok () e') :
    ∃ m', e'.methods = m' :: rest ∧ m.Proceeds e'.assembler.pool m' ∧
      (lm.step ⟨m.code.size, m'.code.size⟩ (.patchBreak index)).Tracks m' := by
  unfold patchBreak at he
  obtain ⟨m₀, rest₀, m', hm₀, hact, rfl⟩ := onMethod_ok he
  rw [hm] at hm₀
  cases hm₀
  refine ⟨m', rfl, ?_⟩
  obtain ⟨r, m₁, h₁, hact⟩ := EStateM.bind_eq_ok.mp hact
  obtain ⟨hm₁, f, hf, rfl⟩ := MethodM.frame_ok h.strict h₁
  rw [hm₁] at hact
  dsimp only at hact
  obtain ⟨_, _, ⟨⟩, hact⟩ := EStateM.bind_eq_ok.mp hact
  -- under strict ordering the frame closed is the innermost one
  have hlen : index + 1 = m.flow.loops.length := by
    by_contra hne
    rw [if_pos hne] at hact
    obtain ⟨_, _, hv, _⟩ := EStateM.bind_eq_ok.mp hact
    exact MethodM.violation_strict h.strict hv
  rw [if_neg (not_not.mpr hlen)] at hact
  obtain ⟨_, _, ⟨⟩, hact⟩ := EStateM.bind_eq_ok.mp hact
  have hlast : (m.flow.loops.take (index + 1)).getLast? = some f := by
    rw [hlen, List.take_length, List.getLast?_eq_getElem?, ← hlen, Nat.add_sub_cancel]
    exact hf
  rw [hlast] at hact
  dsimp only at hact
  obtain ⟨_, _, ⟨⟩, hact⟩ := EStateM.bind_eq_ok.mp hact
  split at hact
  · obtain ⟨_, _, hv, _⟩ := EStateM.bind_eq_ok.mp hact
    refine (MethodM.violation_strict ?_ hv).elim
    exact h.strict
  next hentry =>
  split at hact
  · obtain ⟨_, _, hv, _⟩ := EStateM.bind_eq_ok.mp hact
    refine (MethodM.violation_strict ?_ hv).elim
    exact h.strict
  obtain ⟨_, m₃, h₃, hact⟩ := EStateM.bind_eq_ok.mp hact
  dsimp only at h₃
  obtain ⟨hv, rfl⟩ := MethodM.forM_patchHere_ok h₃
  change ∀ s ∈ f.breaks ++ f.continues, S24.Fits ((m.code.size : Int) - s - 4) at hv
  cases hact
  simp only [Option.isSome_iff_ne_none, ne_eq, Decidable.not_not] at hentry
  obtain ⟨fi, hfi, hft⟩ := Option.Rel.exists_of_some_right
    (hf ▸ List.Forall₂.getElem?_rel h.agrees.frames index)
  simp only [MethodIntent.step, hfi]
  obtain ⟨insts, hi⟩ := h.laid.code
  have hsites := List.rel_append hft.breaks hft.continues
  have hland := Buffer.keeps_landAll hi fun s hs =>
    ⟨(List.Forall₂.exists_of_mem_right hsites hs).elim fun _ ⟨_, hj⟩ => hj.mem, hv s hs⟩
  have hdrop : (m.flow.loops.take (index + 1)).dropLast = m.flow.loops.dropLast := by
    rw [hlen, List.take_length]
  have hsum : m.flow.loops.flatMap LoopFrame.pending =
      m.flow.loops.dropLast.flatMap LoopFrame.pending ++ f.pending := by
    rw [hlen, List.take_length] at hlast
    conv_lhs => rw [← List.dropLast_append_getLast? _ hlast]
    rw [List.flatMap_append, List.flatMap_singleton]
  have hperm : ({ m with
      code := (f.breaks ++ f.continues).foldl
        (fun c s => c.setSlot (s + 1) ((m.code.size : Int) - s - 4)) m.code,
      flow := { m.flow with loops := (m.flow.loops.take (index + 1)).dropLast }
      } : MethodState).pending ++ (f.breaks ++ f.continues) |>.Perm (m.pending ++ []) := by
    rw [List.perm_iff_count]
    intro a
    simp only [MethodState.pending, hdrop, hsum, LoopFrame.pending, hentry, Option.toList_none,
      List.count_append, List.count_nil, List.append_nil]
    omega
  have hold := h.agrees.keeps hland.1
  have hframes : List.Forall₂ (FrameIntent.Tracks ((f.breaks ++ f.continues).foldl
      (fun c s => c.setSlot (s + 1) ((m.code.size : Int) - s - 4)) m.code))
      (lm.frames.take index) (m.flow.loops.take (index + 1)).dropLast := by
    rw [hdrop, List.dropLast_eq_take, ← hlen, Nat.add_sub_cancel]
    exact List.forall₂_take index hold.frames
  refine ⟨.of_keeps hland.1 rfl, ?_⟩
  refine h.step (N := []) hland.1 rfl hperm (by simp) List.nodup_nil
    ⟨hold.ifs, hold.elses, hframes, hold.regions⟩ rfl
    (Jump.toAll_lands hsites hland.2 (fun s hs => ⟨hs, hv s hs,
      h.not_pending hperm (by simp) List.nodup_nil hs⟩) (Buffer.size_foldl_setSlot _ _).ge)
    (List.append_nil _).symm (by simp)

/-! ## Switch labels and dispatch -/

/-- under strict ordering a switch label finds its frame, returns to the frame's depth and
writes a label -/
theorem switchLabel_ok (hm : e.methods = m :: rest) (hs : m.strict = true) {index : Nat}
    {r : Option Nat} (h : switchLabel index e = .ok r e') :
    ∃ f address m', m.flow.loops[index]? = some f ∧ r = some address ∧ e'.methods = m' :: rest ∧
      { m with depth := m.depth.setStack f.stackDepth }.Emits (.simple SimpleOp.label) address m' := by
  unfold switchLabel at h
  obtain ⟨r₁, e₁, h₁, h⟩ := EStateM.bind_eq_ok.mp h
  obtain ⟨rfl, f, hf, rfl⟩ := onFrame_ok hm hs h₁
  dsimp only at h
  obtain ⟨_, e₂, h₂, h⟩ := EStateM.bind_eq_ok.mp h
  obtain ⟨m₀, rest₀, hm₀, rfl⟩ := onMethod_modify_ok h₂
  rw [hm] at hm₀
  cases hm₀
  obtain ⟨address, h₃, rfl⟩ := EStateM.map_eq_ok h
  obtain ⟨-, m₀, rest₀, m', hm₀, hm', hemit⟩ := emit_emits h₃
  cases hm₀
  exact ⟨f, address, m', hf, rfl, hm', hemit⟩

/-- A case or default label of switch `index` writes a label and records its address `a` in the
frame, by a change `k` that leaves the frame's pending jumps alone and that `g` follows in the
intent. -/
theorem switchLabel_tracks (h : lm.Tracks m) (hm : e.methods = m :: rest) {index : Nat}
    {g : Nat → FrameIntent → FrameIntent} {k : Nat → LoopFrame → LoopFrame}
    (hg : ∀ c fi f a, fi.Tracks c f → a < c.size → (g a fi).Tracks c (k a f))
    (hp : ∀ a f, (k a f).pending = f.pending)
    (he : (do
      let some address ← switchLabel index | return
      onMethod fun _ => do
        if (← frame index).isSome then modifyFrame index (k address) : EmitM Unit) e =
      .ok () e') :
    ∃ m', e'.methods = m' :: rest ∧ m.Proceeds e'.assembler.pool m' ∧
      ((lm.modifyFrame index (g (m'.code.size - 1))).addLabel ⟨m.code.size, m'.code.size⟩).Tracks
        m' := by
  obtain ⟨r, e₁, h₁, he⟩ := EStateM.bind_eq_ok.mp he
  obtain ⟨f, address, m₁, hf, rfl, hm₁, hemit⟩ := switchLabel_ok hm h.strict h₁
  dsimp only at he
  obtain ⟨m₀, rest₀, m', hm₀, hact, rfl⟩ := onMethod_ok he
  rw [hm₁] at hm₀
  obtain ⟨hm₀, rfl⟩ := List.cons.inj hm₀
  subst m₀
  refine ⟨m', rfl, ?_⟩
  obtain ⟨r, m₂, h₂, hact⟩ := EStateM.bind_eq_ok.mp hact
  obtain ⟨hm₂, f', hf', rfl⟩ := MethodM.frame_ok (hemit.strict.trans h.strict) h₂
  subst m₂
  rw [hemit.flow] at hf'
  obtain ⟨⟩ := hf.symm.trans hf'
  simp only [Option.isSome_some, if_true, modifyFrame] at hact
  cases hact
  have hk := hemit.keeps h.laid.code
  refine ⟨.of_keeps hk hemit.handlers, ?_⟩
  have hsize : m₁.code.size = address + 1 := by rw [hemit.size, label_bytes]
  change ((lm.modifyFrame index (g (m₁.code.size - 1))).addLabel ⟨m.code.size, m₁.code.size⟩).Tracks _
  rw [hsize, Nat.add_sub_cancel]
  have hold : lm.Matches m₁.code m₁.flow m₁.handlers := by
    rw [hemit.flow, hemit.handlers]
    exact h.agrees.keeps hk
  refine h.step (L := []) (N := []) hk hemit.strict ?_ (by simp) List.nodup_nil
    ⟨hold.ifs, hold.elses, ?_, hold.regions⟩ (List.append_nil _).symm (by simp) rfl ?_
  · have hmod := List.perm_iff_count.mp
      (List.perm_flatMap_modify (P := LoopFrame.pending) (X := []) (Y := []) (g := k address) hf
        (by rw [hp]))
    rw [List.perm_iff_count]
    intro a
    have := hmod a
    simp only [MethodState.pending, hemit.flow, hemit.handlers, List.count_append,
      List.append_nil] at this ⊢
    omega
  · exact List.Forall₂.modify hold.frames (fun fi f ht => hg _ fi f address ht (by omega)) index
  · intro a ha
    rw [List.mem_singleton.mp ha, Nat.add_sub_cancel]
    exact hemit.mem_layout h.laid.code

theorem caseLabel_tracks (h : lm.Tracks m) (hm : e.methods = m :: rest) {index : Nat}
    (he : caseLabel index e = .ok () e') :
    ∃ m', e'.methods = m' :: rest ∧ m.Proceeds e'.assembler.pool m' ∧
      (lm.step ⟨m.code.size, m'.code.size⟩ (.caseLabel index)).Tracks m' :=
  switchLabel_tracks (g := fun a fi => { fi with cases := fi.cases ++ [a] })
    (k := fun a f => { f with cases := f.cases ++ [a] }) h hm
    (fun _ _ _ _ ht ha => { ht with
      cases := by rw [ht.cases]
      cases_lt := by
        intro b hb
        rcases List.mem_append.mp hb with hb | hb
        · exact ht.cases_lt b hb
        · rw [List.mem_singleton.mp hb]
          exact ha })
    (fun _ _ => rfl) he

theorem defaultLabel_tracks (h : lm.Tracks m) (hm : e.methods = m :: rest) {index : Nat}
    (he : defaultLabel index e = .ok () e') :
    ∃ m', e'.methods = m' :: rest ∧ m.Proceeds e'.assembler.pool m' ∧
      (lm.step ⟨m.code.size, m'.code.size⟩ (.defaultLabel index)).Tracks m' :=
  switchLabel_tracks (g := fun a fi => { fi with defaultCase := some a })
    (k := fun a f => { f with defaultCase := some a }) h hm
    (fun _ _ _ _ ht ha => { ht with
      defaultCase := rfl
      default_lt := by
        intro b hb
        rw [← Option.mem_some_iff.mp hb]
        exact ha })
    (fun _ _ => rfl) he

end Emitter

/-! ## Jump tables

A jump table's displacements count from its own address. Its length depends only on its number
of cases, so a table of zeros with as many cases measures it before its targets are known. -/

theorem Encoder.writes_s24 {v : Int} (h : S24.Fits v) : (Encoder.s24 v).Writes (S24.encode v) :=
  fun b => by simp [Encoder.s24, Encoder.checked, Buffer.writeS24, h]

theorem Encoder.writes_count {what : String} {n : Nat} (h : VarInt.Fits n) :
    (Encoder.count what n).Writes (VarInt.encode n) :=
  fun b => by simp [Encoder.count, Encoder.checked, Buffer.writeCount, show n ≤ VarInt.maxU30 from h]

theorem Encoder.writes_each {α : Type} {f : α → Encoder Unit} {g : α → List UInt8} :
    ∀ xs : List α, (∀ x ∈ xs, (f x).Writes (g x)) → (Encoder.each f xs).Writes (xs.flatMap g)
  | [], _ => Encoder.Writes.pure
  | x :: xs, h =>
    (h x List.mem_cons_self).bind (Encoder.writes_each xs fun y hy => h y (List.mem_cons_of_mem x hy))

/-- a jump table takes its opcode, its default, its case count less one and three bytes a case -/
theorem Instruction.length_bytes_lookupSwitch {d : Int32} {cs : List Int32}
    (h : (Instruction.lookupSwitch d cs).Fits) :
    (Instruction.lookupSwitch d cs).bytes.length =
      4 + (VarInt.encode (cs.length - 1)).length + 3 * cs.length := by
  obtain ⟨hd, hne, hcount, hcs⟩ := h
  obtain ⟨c, rest, rfl⟩ := List.exists_cons_of_ne_nil hne
  have hw : (Instruction.lookupSwitch d (c :: rest)).encode.Writes
      ([Opcode.lookupSwitch.byte] ++ (S24.encode d.toInt ++ (VarInt.encode rest.length ++
        (c :: rest).flatMap fun x => S24.encode x.toInt))) :=
    (Encoder.writes_byte _).bind ((Encoder.writes_s24 hd).bind ((Encoder.writes_count hcount).bind
      (Encoder.writes_each _ fun x hx => Encoder.writes_s24 (hcs x hx))))
  rw [Instruction.writes_bytes hw]
  simp [List.length_flatMap, S24.encode]
  omega

/-- A table of zeros with as many cases as a jump table whose operands fit takes as many bytes. -/
theorem Instruction.length_bytes_zeros {d : Int32} {cs : List Int32}
    (h : (Instruction.lookupSwitch d cs).Fits) {n : Nat} (hn : n = cs.length) :
    (Instruction.lookupSwitch 0 (List.replicate n 0)).bytes.length =
      (Instruction.lookupSwitch d cs).bytes.length := by
  subst hn
  have hz : S24.Fits (0 : Int32).toInt := by decide
  have h' : (Instruction.lookupSwitch 0 (List.replicate cs.length 0)).Fits :=
    ⟨hz, by simpa [List.length_eq_zero_iff] using h.2.1, by simpa using h.2.2.1,
      fun c hc => (List.eq_of_mem_replicate hc).symm ▸ hz⟩
  rw [Instruction.length_bytes_lookupSwitch h, Instruction.length_bytes_lookupSwitch h',
    List.length_replicate]

/-- A jump table written at `site` to addresses below `2 ^ 31`, each displacement counted from
`site`, goes to those addresses. -/
theorem Instruction.targets_relative {site t₀ : Nat} {ts : List Nat} (hs : site < 2 ^ 31)
    (ht : ∀ t ∈ t₀ :: ts, t < 2 ^ 31) :
    (Instruction.lookupSwitch (Int32.ofInt ((t₀ : Int) - site))
      (ts.map fun t : Nat => Int32.ofInt ((t : Int) - site))).targets site =
      (t₀ :: ts).map Nat.cast := by
  have hrel : ∀ t ∈ t₀ :: ts, (site : Int) + (Int32.ofInt ((t : Int) - site)).toInt = t := by
    intro t hmem
    have := ht t hmem
    rw [Int32.toInt_ofInt_of_le (by omega) (by omega)]
    omega
  simp only [Instruction.targets, List.map_cons, List.map_map]
  exact List.map_congr_left hrel

namespace Emitter

theorem switchDispatch_tracks (h : lm.Tracks m) (hm : e.methods = m :: rest) {index : Nat}
    (he : switchDispatch index e = .ok () e') :
    ∃ m', e'.methods = m' :: rest ∧ m.Proceeds e'.assembler.pool m' ∧
      (lm.step ⟨m.code.size, m'.code.size⟩ (.switchDispatch index)).Tracks m' := by
  unfold switchDispatch at he
  obtain ⟨_, e₁, h₁, he⟩ := EStateM.bind_eq_ok.mp he
  obtain ⟨-, m₁, hm₁, hw⟩ := writes_innermost flushPosition_writes h₁ hm
  obtain ⟨site, e₂, h₂, he⟩ := EStateM.bind_eq_ok.mp he
  obtain ⟨rfl, m₀, rest₀, hm₀, rfl⟩ := position_ok h₂
  rw [hm₁] at hm₀
  obtain ⟨hm₀, -⟩ := List.cons.inj hm₀
  subst m₀
  obtain ⟨r, e₃, h₃, he⟩ := EStateM.bind_eq_ok.mp he
  obtain ⟨rfl, f, hf, rfl⟩ := onFrame_ok hm₁ (hw.strict.trans h.strict) h₃
  dsimp only at he
  obtain ⟨_, he, -⟩ := EStateM.map_eq_ok he
  obtain ⟨m₀, rest₀, m', hm₀, hemit, rfl⟩ := onMethod_ok he
  rw [hm₁] at hm₀
  obtain ⟨hm₀, rfl⟩ := List.cons.inj hm₀
  subst m₀
  refine ⟨m', rfl, ?_⟩
  generalize hstop : m₁.code.size + (Instruction.lookupSwitch 0
    (List.replicate (f.cases.length.max 1) 0)).encodedLen = stop at hemit
  generalize hcases : (if f.cases.isEmpty = true then [f.defaultCase.getD stop] else f.cases) =
    cases at hemit
  obtain ⟨rfl, hfits, -⟩ := MethodM.emit_ok hemit
  have hemits := hw.emits (MethodM.emit_emits hemit)
  have hlen : cases.length = f.cases.length.max 1 := by
    rw [← hcases, show f.cases.length.max 1 = max f.cases.length 1 from rfl]
    split
    · next hnil => simp [List.isEmpty_iff.mp hnil]
    · next hne =>
      have := List.length_pos_of_ne_nil (mt List.isEmpty_iff.mpr hne)
      omega
  have hsize : m'.code.size = stop := by
    have hz := Instruction.length_bytes_zeros hfits (n := f.cases.length.max 1)
      (by rw [List.length_map, hlen])
    rw [hemits.size, ← hz, ← Instruction.encodedLen_eq]
    exact hstop
  rw [hw.flow] at hf
  obtain ⟨fi, hfi, hft⟩ := Option.Rel.exists_of_some_right
    (hf ▸ List.Forall₂.getElem?_rel h.agrees.frames index)
  simp only [MethodIntent.step, hfi]
  have hk := hemits.keeps h.laid.code
  have hold : lm.Matches m'.code m'.flow m'.handlers := by
    rw [hemits.flow, hemits.handlers]
    exact h.agrees.keeps hk
  have hpend := pending_eq_of_eq hemits.flow hemits.handlers
  refine ⟨.of_keeps hk hemits.handlers, ?_⟩
  refine h.step (L := []) (N := []) hk hemits.strict (by rw [hpend]) (by simp) List.nodup_nil
    ⟨hold.ifs, hold.elses, hold.frames, hold.regions⟩ rfl ?_ (List.append_nil _).symm (by simp)
  intro j hj
  rw [List.mem_singleton.mp hj]
  refine ⟨le_rfl, m₁.code.size, _, hemits.lastJump h.laid.code rfl le_rfl, ?_, fun hlt => ?_⟩
  · rw [hpend]
    intro hp
    have := h.laid.lt_size hp
    have := hemits.lt_size.1
    omega
  have hlo := hemits.lt_size
  have hdflt : f.defaultCase.getD stop ≤ m'.code.size := by
    cases hd : f.defaultCase with
    | none => simp [hsize]
    | some a =>
      have := hft.default_lt a (by simp [hd])
      simp only [Option.getD_some]
      omega
  have hbound : ∀ t ∈ f.defaultCase.getD stop :: cases, t < 2 ^ 31 := by
    intro t ht
    rcases List.mem_cons.mp ht with rfl | ht
    · omega
    · rw [← hcases] at ht
      split at ht
      · rw [List.mem_singleton.mp ht]
        omega
      · have := hft.cases_lt t ht
        omega
  rw [← hsize, hft.cases, hft.defaultCase, hsize, hcases]
  exact Instruction.targets_relative (by omega) hbound

end Emitter

end AbcKit.Emit
