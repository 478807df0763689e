import AbcKit.Proofs.FlowTracking
/-!
Each call on a try region keeps the innermost method tracked by its intent, stepped by the call
over the code it wrote.

The region a call works on is the innermost one, and the intent's last region follows it: its
jump over the handlers, and the jumps out of each handler but the last, are the last jumps of the
spans the intent keeps for them. `catch_clauses_end` lands them where the code ends, which is
where the intent says they go. The jumps into a finally body and the jump past its rethrowing
handler are bookkeeping of the region that the intent does not follow: they are pending while
the region is open and may be dropped with it.

Each lemma also says what the call did to the innermost region, for what follows the finally
bodies: `try_begin` adds it with no call site, the calls on its handlers keep its call sites and
resume points (`MethodState.HandlesLast`), `finally_clause_begin` enters the body from two more
call sites and lands the jump of every call site at the body's first instruction, which stores the
resume index (`HandlerBlock.StartsBody`), and `finally_clause_end` returns through a jump table
with one case per resume point.
-/
namespace AbcKit

theorem List.Forall₂.modifyLast {α β : Type} {R : α → β → Prop} {l : List α} {l' : List β}
    {b b' : β} (h : List.Forall₂ R l (l' ++ [b])) {f : α → α} (hf : ∀ a, R a b → R (f a) b') :
    List.Forall₂ R (l.modify (l.length - 1) f) (l' ++ [b']) := by
  obtain ⟨l₀, a, rfl, h₀, hab⟩ := List.Forall₂.concat_right h
  rw [List.length_append, List.length_singleton, Nat.add_sub_cancel, List.modify_concat]
  exact List.rel_append h₀ (.cons (hf a hab) .nil)

theorem Option.Rel.toList {α β : Type} {r : α → β → Prop} {x : Option α} {y : Option β}
    (h : Option.Rel r x y) : List.Forall₂ r x.toList y.toList := by
  cases h with
  | some hab => exact .cons hab .nil
  | none => exact .nil

end AbcKit

namespace AbcKit.Emit

open MethodState

variable {lm : MethodIntent} {m m' : MethodState} {rest : List MethodState} {e e' : Emitter}

/-- The pending branches of a method whose innermost region changes from `b` to `b'`, its loops
as they were, move as the region's do. -/
theorem MethodState.pending_setLast {hs : List HandlerBlock} {b b' : HandlerBlock}
    {L N : List Nat} (hflow : m'.flow = m.flow) (hh : m.handlers = hs ++ [b])
    (hh' : m'.handlers = hs ++ [b']) (hp : (b'.pending ++ L).Perm (b.pending ++ N)) :
    (m'.pending ++ L).Perm (m.pending ++ N) := by
  rw [List.perm_iff_count]
  intro a
  have := List.perm_iff_count.mp hp a
  simp only [MethodState.pending, hflow, hh, hh', List.flatMap_append, List.flatMap_singleton,
    List.count_append] at this ⊢
  omega

/-- a region in one of the states a call expects, the finally body not among them, is not in its
finally body -/
theorem BlockState.ne_finallyBody {st : BlockState} {expected : List BlockState}
    (h : st ∈ expected) (hf : BlockState.finallyBody ∉ expected) : st ≠ .finallyBody :=
  fun hst => hf (hst ▸ h)

/-- A call on the handlers of the innermost region, before its finally body, leaves the region's
call sites and resume points as they were, still before its finally body, or closes it. -/
def MethodState.HandlesLast (m m' : MethodState) : Prop :=
  ∃ hs b, m.handlers = hs ++ [b] ∧ b.state ≠ .finallyBody ∧
    (m'.handlers = hs ∨ ∃ b', m'.handlers = hs ++ [b'] ∧ b'.state ≠ .finallyBody ∧
      b'.callSites = b.callSites ∧ b'.resumes = b.resumes)

/-- Opening a region that leaves no branch pending, with the intent's region `ri` tracking it,
keeps the method tracked. -/
theorem MethodIntent.Tracks.openRegion (h : lm.Tracks m) {ri : RegionIntent} {b : HandlerBlock}
    (hri : ri.Tracks m.code b) (hb : b.pending = []) :
    { lm with regions := lm.regions ++ [ri] }.Tracks { m with handlers := m.handlers ++ [b] } :=
  h.step (L := []) (N := []) (.refl h.laid.code) rfl
    (by simp [MethodState.pending, hb]) (by simp) List.nodup_nil
    ⟨h.agrees.ifs, h.agrees.elses, h.agrees.frames, List.rel_append h.agrees.regions (.cons hri .nil)⟩
    (List.append_nil _).symm (by simp) (List.append_nil _).symm (by simp)

/-- Changing what the intent does not follow of the innermost region, its pending branches
as they were, keeps the method tracked. -/
theorem MethodIntent.Tracks.setLast (h : lm.Tracks m) {hs : List HandlerBlock}
    {b b' : HandlerBlock} (hh : m.handlers = hs ++ [b]) (hp : b'.pending = b.pending)
    (hr : ∀ ri : RegionIntent, ri.Tracks m.code b → ri.Tracks m.code b') :
    lm.Tracks { m with handlers := hs ++ [b'] } := by
  have hregs := h.agrees.regions
  rw [hh] at hregs
  obtain ⟨rs, ri, hlr, hrs, hri⟩ := List.Forall₂.concat_right hregs
  refine h.step (L := []) (N := []) (.refl h.laid.code) rfl
    (pending_setLast rfl hh rfl (by rw [hp])) (by simp) List.nodup_nil
    ⟨h.agrees.ifs, h.agrees.elses, h.agrees.frames, ?_⟩
    (List.append_nil _).symm (by simp) (List.append_nil _).symm (by simp)
  rw [hlr]
  exact List.rel_append hrs (.cons (hr ri hri) .nil)

namespace Emitter

/-- Opening a region writes no jump and adds it innermost, in its protected body, with no call
site into its finally body yet. -/
theorem tryBegin_tracks (h : lm.Tracks m) (hm : e.methods = m :: rest) {hasFinally : Bool}
    (he : tryBegin hasFinally e = .ok () e') :
    ∃ m', e'.methods = m' :: rest ∧ m.code.Keeps m'.code [] ∧
      (∃ b, m'.handlers = m.handlers ++ [b] ∧ b.state = .protectedBody ∧ b.callSites = [] ∧
        b.resumes = []) ∧
      (lm.step ⟨m.code.size, m'.code.size⟩ (.tryBegin hasFinally)).Tracks m' := by
  unfold tryBegin at he
  obtain ⟨_, e₁, h₁, he⟩ := EStateM.bind_eq_ok.mp he
  obtain ⟨-, m₁, hm₁, hw₁⟩ := writes_innermost flushPosition_writes h₁ hm
  obtain ⟨m₀, rest₀, m', hm₀, hact, rfl⟩ := onMethod_ok he
  rw [hm₁] at hm₀
  obtain ⟨hm₀, rfl⟩ := List.cons.inj hm₀
  subst m₀
  refine ⟨m', rfl, ?_⟩
  extract_lets -underBinder +onlyGivenNames push at hact
  suffices hpush : ∀ sel m₂, m₁.SameJumps m₂ → push sel m₂ = .ok () m' →
      m.code.Keeps m'.code [] ∧
        (∃ b, m'.handlers = m.handlers ++ [b] ∧ b.state = .protectedBody ∧ b.callSites = [] ∧
          b.resumes = []) ∧
        (lm.step ⟨m.code.size, m'.code.size⟩ (.tryBegin hasFinally)).Tracks m' by
    split at hact
    · obtain ⟨sel, m₂, h₂, hact⟩ := EStateM.bind_eq_ok.mp hact
      exact hpush sel m₂ ((Triple.map MethodM.allocTemp_keeps).ok_of trivial h₂).1 hact
    · obtain ⟨sel, m₂, h₂, hact⟩ := EStateM.bind_eq_ok.mp hact
      exact hpush sel m₂ ((MethodM.Keeps.pure _).ok h₂) hact
  intro sel m₂ hj₂ hact
  dsimp -zeta only [push] at hact
  obtain ⟨_, _, hget, hset⟩ := EStateM.bind_eq_ok.mp hact
  cases hget
  cases hset
  have hw := hw₁.trans (Writes.of_sameJumps hj₂)
  refine ⟨hw.keeps h.laid.code, ⟨_, by rw [hw.handlers], rfl, rfl, rfl⟩, ?_⟩
  exact (h.adds (Adds.of_writes hw)).openRegion ⟨rfl, .none, .nil, rfl⟩ rfl

theorem catchClausesBegin_tracks (h : lm.Tracks m) (hm : e.methods = m :: rest)
    (he : catchClausesBegin e = .ok () e') :
    ∃ m', e'.methods = m' :: rest ∧ (∃ L, m.code.Keeps m'.code L) ∧ m.HandlesLast m' ∧
      (lm.step ⟨m.code.size, m'.code.size⟩ .catchClausesBegin).Tracks m' := by
  unfold catchClausesBegin at he
  obtain ⟨r, e₀, h₀, he⟩ := EStateM.bind_eq_ok.mp he
  obtain ⟨rfl, hs, b, hh, rfl, hst⟩ := openBlock_last hm h.strict h₀
  dsimp only at he
  obtain ⟨_, e₁, h₁, he⟩ := EStateM.bind_eq_ok.mp he
  obtain ⟨-, m₁, hm₁, hw₁⟩ := writes_innermost flushPosition_writes h₁ hm
  obtain ⟨stop, e₂, h₂, he⟩ := EStateM.bind_eq_ok.mp he
  obtain ⟨rfl, m₂, rest₂, hm₂, rfl⟩ := position_ok h₂
  rw [hm₁] at hm₂
  obtain ⟨hm₂, -⟩ := List.cons.inj hm₂
  subst m₂
  obtain ⟨_, e₃, h₃, he⟩ := EStateM.bind_eq_ok.mp he
  obtain ⟨-, _, hm₃, rfl⟩ := modifyHandler_last hm₁ (hw₁.handlers.trans hh) h₃
  obtain ⟨skip, e₄, h₄, he⟩ := EStateM.bind_eq_ok.mp he
  obtain ⟨-, m₄, hm₄, hemit⟩ := reserve_innermost h₄ hm₃
  obtain ⟨-, _, hm₅, rfl⟩ := modifyHandler_last hm₄ hemit.handlers he
  have hk₁ := hw₁.keeps h.laid.code
  have hk := hk₁.trans (hemit.keeps hk₁.laid)
  refine ⟨_, hm₅, ⟨_, hk⟩, ⟨hs, b, hh, BlockState.ne_finallyBody hst (by decide),
    .inr ⟨_, rfl, by simp, rfl, rfl⟩⟩, ?_⟩
  have hjump := hemit.jumpAt hk₁.laid hk₁.size
  have hflow : m₄.flow = m.flow := hemit.flow.trans hw₁.flow
  have hold := h.agrees.keeps hk
  rw [hh] at hold
  refine h.step (L := b.skip.toList) (N := [skip]) (hk.mono (by simp)) (hemit.strict.trans hw₁.strict)
    (pending_setLast hflow hh rfl ?_) ?_ (List.nodup_singleton _)
    ⟨hflow ▸ hold.ifs, hflow ▸ hold.elses, hflow ▸ hold.frames,
      List.Forall₂.modifyLast hold.regions fun _ hr => ⟨hr.hasFinally, .some hjump, hr.ends, hr.clauses⟩⟩
    (List.append_nil _).symm (by simp) (List.append_nil _).symm (by simp)
  · rw [List.perm_iff_count]
    intro a
    simp only [HandlerBlock.pending, Option.toList_some, List.count_append, List.count_singleton]
    omega
  · intro s hs'
    rw [List.mem_singleton.mp hs']
    exact ⟨hk₁.size.trans hemit.lt_size.1, hemit.branchAt hk₁.laid⟩

/-- The handler before a new catch clause, if there is one, ends with a jump out of the handlers,
new and pending on the region: the last jump of the code so far. The rest of the call runs from
there. -/
theorem endHandler_tracks {α : Type} {K : Unit → EmitM α} {hs : List HandlerBlock}
    {b : HandlerBlock} {x : α} (hm : e.methods = m :: rest) (hh : m.handlers = hs ++ [b])
    (hl : m.code.Laid)
    (h : (if b.clauses > 0 then (reserve .jump >>= fun stop => modifyHandler hs.length
      (fun b => { b with handlerEnds := b.handlerEnds ++ [stop] }) >>= K) else K ()) e =
      .ok x e') :
    ∃ e₁ m₁ N, e₁.methods = m₁ :: rest ∧
      m₁.handlers = hs ++ [{ b with handlerEnds := b.handlerEnds ++ N }] ∧
      m.code.Keeps m₁.code [] ∧ m₁.strict = m.strict ∧ m₁.flow = m.flow ∧
      (∀ s ∈ N, m.code.size ≤ s ∧ m₁.code.JumpAt ⟨m.code.size, m₁.code.size⟩ s) ∧
      (if b.clauses > 0 then ∃ s, N = [s] else N = []) ∧ K () e₁ = .ok x e' := by
  split at h
  · next hpos =>
    obtain ⟨stop, e₂, h₂, h⟩ := EStateM.bind_eq_ok.mp h
    obtain ⟨-, m₂, hm₂, hemit⟩ := reserve_innermost h₂ hm
    obtain ⟨⟨⟩, e₃, h₃, h⟩ := EStateM.bind_eq_ok.mp h
    obtain ⟨-, _, hm₃, rfl⟩ := modifyHandler_last hm₂ (hemit.handlers.trans hh) h₃
    refine ⟨e₃, _, [stop], hm₃, rfl, hemit.keeps hl, hemit.strict, hemit.flow,
      fun s hs' => ?_, by rw [if_pos hpos]; exact ⟨stop, rfl⟩, h⟩
    rw [List.mem_singleton.mp hs']
    exact ⟨hemit.lt_size.1, hemit.jumpAt hl le_rfl⟩
  · next hpos =>
    exact ⟨e, m, [], hm, by rw [List.append_nil]; exact hh, .refl hl, rfl, rfl, by simp,
      by rw [if_neg hpos], h⟩

theorem catchClause_tracks (h : lm.Tracks m) (hm : e.methods = m :: rest)
    {excType varName : Option Name} {p : Nat} (he : catchClause excType varName e = .ok p e') :
    ∃ m', e'.methods = m' :: rest ∧ (∃ L, m.code.Keeps m'.code L) ∧ m.HandlesLast m' ∧
      (lm.step ⟨m.code.size, m'.code.size⟩ (.catchClause excType varName)).Tracks m' := by
  unfold catchClause at he
  obtain ⟨r, e₀, h₀, he⟩ := EStateM.bind_eq_ok.mp he
  obtain ⟨he₀, hs, b, hh, rfl, hst⟩ := openBlock_last hm h.strict h₀
  subst e₀
  dsimp -zeta only at he
  obtain ⟨b₀, e₀, h₀, he⟩ := EStateM.bind_eq_ok.mp he
  obtain ⟨he₀, hb₀⟩ := handler_last hm hh h₀
  subst e₀ b₀
  obtain ⟨e₁, m₁, N, hm₁, hh₁, hk₁, hs₁, hf₁, hN, hlen, he⟩ := endHandler_tracks hm hh h.laid.code he
  dsimp only at he
  obtain ⟨ti, e₂, h₂, he⟩ := EStateM.bind_eq_ok.mp he
  have hw₂ : e₁.Writes e₂ := by
    cases excType
    · cases h₂; exact refl_of _ _
    · exact onPool_writes _ _ _ h₂
  obtain ⟨vi, e₃, h₃, he⟩ := EStateM.bind_eq_ok.mp he
  have hw₃ : e₂.Writes e₃ := by
    cases varName
    · cases h₃; exact refl_of _ _
    · exact onPool_writes _ _ _ h₃
  obtain ⟨_, e₄, h₄, he⟩ := EStateM.bind_eq_ok.mp he
  obtain ⟨-, m₄, hm₄, hw₄⟩ := (trans_of Emitter.Writes hw₂ (trans_of Emitter.Writes hw₃
    (flushPosition_writes _ _ _ h₄))).innermost hm₁
  obtain ⟨target, e₅, h₅, he⟩ := EStateM.bind_eq_ok.mp he
  obtain ⟨he₅, m₅, rest₅, hm₅, rfl⟩ := position_ok h₅
  subst e₅
  rw [hm₄] at hm₅
  obtain ⟨hm₅, -⟩ := List.cons.inj hm₅
  subst m₅
  obtain ⟨b₂, e₆, h₆, he⟩ := EStateM.bind_eq_ok.mp he
  obtain ⟨he₆, hb₂⟩ := handler_last hm₄ (hw₄.handlers.trans hh₁) h₆
  subst e₆ b₂
  obtain ⟨_, e₇, h₇, he⟩ := EStateM.bind_eq_ok.mp he
  obtain ⟨-, m₇, hm₇, hm₇def⟩ := modifyHandler_last hm₄ (hw₄.handlers.trans hh₁) h₇
  obtain ⟨_, e₈, h₈, he⟩ := EStateM.bind_eq_ok.mp he
  obtain ⟨-, m₈, hm₈, rfl⟩ := appendEntry_last hm₇ h₈
  obtain ⟨cur, e₉, h₉, he⟩ := EStateM.bind_eq_ok.mp he
  obtain ⟨he₉, rest₉, hm₉⟩ := current_ok h₉
  subst e₉
  rw [hm₈, List.cons.injEq] at hm₉
  obtain ⟨rfl, -⟩ := hm₉
  obtain ⟨_, e₁₀, h₁₀, he⟩ := EStateM.bind_eq_ok.mp he
  obtain ⟨-, m', hm', hw'⟩ := writes_innermost (enterHandler_writes _) h₁₀ hm₈
  cases he
  subst m₇
  have hk₄ := hk₁.trans (hw₄.keeps hk₁.laid)
  have hk := hk₄.trans (hw'.keeps hk₄.laid)
  have hne : b.state ≠ .finallyBody := BlockState.ne_finallyBody hst (by decide)
  refine ⟨m', hm', ⟨_, hk⟩, ⟨hs, b, hh, hne, .inr ⟨_, hw'.handlers.trans rfl, hne, rfl, rfl⟩⟩, ?_⟩
  have hold := h.agrees.keeps hk
  rw [hh] at hold
  have hflow : m'.flow = m.flow := hw'.flow.trans (hw₄.flow.trans hf₁)
  have hends : ∀ s ∈ N, m.code.size ≤ s ∧ m'.code.JumpAt ⟨m.code.size, m'.code.size⟩ s := by
    intro s hs'
    obtain ⟨hle, hj⟩ := hN s hs'
    exact ⟨hle, hw'.jumpAt hk₄.laid (hw₄.jumpAt hk₁.laid hj)⟩
  refine h.step (L := []) (N := N) hk (hw'.strict.trans (hw₄.strict.trans hs₁))
    (pending_setLast hflow hh (hw'.handlers.trans rfl) ?_) (fun s hs' => ?_) ?_
    ⟨hflow ▸ hold.ifs, hflow ▸ hold.elses, hflow ▸ hold.frames,
      (hw'.handlers.trans rfl) ▸ List.Forall₂.modifyLast hold.regions fun ri hr => ?_⟩
    (List.append_nil _).symm (by simp) (List.append_nil _).symm (by simp)
  · rw [List.perm_iff_count]
    intro a
    simp only [HandlerBlock.pending, List.count_append, List.append_nil]
    omega
  · exact ⟨(hends s hs').1, Buffer.branchAt_iff.mpr ⟨hk.laid, (hends s hs').2.mem⟩⟩
  · split at hlen
    · obtain ⟨s, rfl⟩ := hlen
      exact List.nodup_singleton s
    · rw [hlen]
      exact List.nodup_nil
  · split
    · next hpos =>
      rw [if_pos (hr.clauses ▸ hpos)] at hlen
      obtain ⟨s, rfl⟩ := hlen
      exact ⟨hr.hasFinally, hr.skip,
        List.rel_append hr.ends (.cons (hends s List.mem_cons_self).2 .nil), by rw [hr.clauses]⟩
    · next hpos =>
      rw [if_neg (hr.clauses ▸ hpos)] at hlen
      subst hlen
      exact ⟨hr.hasFinally, hr.skip, by rw [List.append_nil]; exact hr.ends, by rw [hr.clauses]⟩

theorem catchClausesEnd_tracks (h : lm.Tracks m) (hm : e.methods = m :: rest)
    (he : catchClausesEnd e = .ok () e') :
    ∃ m', e'.methods = m' :: rest ∧ (∃ L, m.code.Keeps m'.code L) ∧ m.HandlesLast m' ∧
      (lm.step ⟨m.code.size, m'.code.size⟩ .catchClausesEnd).Tracks m' := by
  unfold catchClausesEnd at he
  obtain ⟨r, e₀, h₀, he⟩ := EStateM.bind_eq_ok.mp he
  obtain ⟨he₀, hs, b, hh, rfl, hst⟩ := openBlock_last hm h.strict h₀
  subst e₀
  dsimp only at he
  obtain ⟨b₀, e₁, h₁, he⟩ := EStateM.bind_eq_ok.mp he
  obtain ⟨he₁, hb₀⟩ := handler_last hm hh h₁
  subst e₁ b₀
  obtain ⟨_, e₂, h₂, he⟩ := EStateM.bind_eq_ok.mp he
  obtain ⟨-, _, hm₂, rfl⟩ := modifyHandler_last hm hh h₂
  obtain ⟨m₃, rest₃, m', hm₃, hact, rfl⟩ := onMethod_ok he
  rw [hm₂] at hm₃
  obtain ⟨hm₃, rfl⟩ := List.cons.inj hm₃
  subst m₃
  refine ⟨m', rfl, ?_⟩
  obtain ⟨_, m₄, h₄, hact⟩ := EStateM.bind_eq_ok.mp hact
  obtain ⟨hv, rfl⟩ := MethodM.forM_patchHere_ok h₄
  change ∀ s ∈ b.skip.toList ++ b.handlerEnds, S24.Fits ((m.code.size : Int) - s - 4) at hv
  obtain ⟨_, m₅, h₅, hact⟩ := EStateM.bind_eq_ok.mp hact
  have hj₅ := (MethodM.restore_keeps _).ok h₅
  have hsub : ∀ s ∈ b.skip.toList ++ b.handlerEnds, s ∈ b.pending := by
    intro s hs'
    simp only [HandlerBlock.pending, List.mem_append] at hs' ⊢
    tauto
  obtain ⟨insts, hi⟩ := h.laid.code
  have hland := Buffer.keeps_landAll hi fun s hs' =>
    ⟨(Buffer.branchAt_iff.mp (h.laid.pending s (mem_pending_of_last hh (hsub s hs')))).2, hv s hs'⟩
  have hk : m.code.Keeps m₅.code b.pending := by
    rw [hj₅.code]
    exact hland.1.mono hsub
  have hreg := h.agrees.regions
  rw [hh] at hreg
  obtain ⟨rs, ri, hlr, hrs, hri⟩ := List.Forall₂.concat_right hreg
  have hlast : lm.regions.getLast? = some ri := by rw [hlr, List.getLast?_concat]
  have hsites : List.Forall₂ m.code.JumpAt (ri.skip.toList ++ ri.ends)
      (b.skip.toList ++ b.handlerEnds) := List.rel_append (Option.Rel.toList hri.skip) hri.ends
  have hsize : m.code.size ≤ m₅.code.size := hk.size
  have hold := h.agrees.keeps hk
  have hne : b.state ≠ .finallyBody := BlockState.ne_finallyBody hst (by decide)
  cases hf : b.hasFinally
  · -- no finally body: the region closes, dropping what else it had pending
    rw [if_neg (by simp [hf])] at hact
    cases hact
    have hdrop : m₅.handlers.dropLast = hs := by
      rw [hj₅.handlers]
      exact List.dropLast_concat
    refine ⟨⟨_, hk⟩, ⟨hs, b, hh, hne, .inl hdrop⟩, ?_⟩
    simp only [MethodIntent.step, hlast]
    have hperm : ({ m₅ with handlers := m₅.handlers.dropLast } : MethodState).pending ++ b.pending
        |>.Perm (m.pending ++ []) := by
      rw [List.perm_iff_count]
      intro a
      simp only [MethodState.pending, hdrop, hj₅.flow, hh, List.flatMap_append,
        List.flatMap_singleton, List.count_append, List.append_nil]
      omega
    rw [if_neg (by simp [hri.hasFinally, hf])]
    refine h.step (N := []) hk hj₅.strict hperm (by simp) List.nodup_nil
      ⟨hj₅.flow ▸ hold.ifs, hj₅.flow ▸ hold.elses, hj₅.flow ▸ hold.frames, ?_⟩ rfl
      (Jump.toAll_lands hsites (hj₅.code ▸ hland.2) (fun s hs' => ⟨hs', hv s hs',
        h.not_pending hperm (by simp) List.nodup_nil (hsub s hs')⟩) hsize)
      (List.append_nil _).symm (by simp)
    dsimp only
    rw [hdrop, hlr, List.dropLast_concat]
    exact hrs.imp fun _ _ hr => hr.keeps hk
  · -- a finally body follows: the region stays, its handlers closed
    rw [if_pos (by simp [hf])] at hact
    obtain rfl : m₅ = m' := by cases hact; rfl
    refine ⟨⟨_, hk⟩, ⟨hs, b, hh, hne, .inr ⟨_, hj₅.handlers, hne, rfl, rfl⟩⟩, ?_⟩
    simp only [MethodIntent.step, hlast]
    have hperm : (m₅.pending ++ (b.skip.toList ++ b.handlerEnds)).Perm (m.pending ++ []) :=
      pending_setLast (hj₅.flow : m₅.flow = m.flow) hh
        (hj₅.handlers : m₅.handlers = hs ++ [{ b with skip := none, handlerEnds := [] }]) (by
        rw [List.perm_iff_count]
        intro a
        simp only [HandlerBlock.pending, Option.toList_none, List.count_append, List.count_nil,
          List.append_nil]
        omega)
    have hregs : List.Forall₂ (RegionIntent.Tracks m₅.code) lm.regions (hs ++ [b]) :=
      hh ▸ hold.regions
    rw [if_pos (by simp [hri.hasFinally, hf])]
    refine h.step (N := []) (by rw [hj₅.code]; exact hland.1) hj₅.strict hperm (by simp)
      List.nodup_nil ⟨hj₅.flow ▸ hold.ifs, hj₅.flow ▸ hold.elses, hj₅.flow ▸ hold.frames,
        hj₅.handlers ▸ List.Forall₂.modifyLast hregs
          fun _ hr => ⟨hr.hasFinally, .none, .nil, hr.clauses⟩⟩ rfl
      (Jump.toAll_lands hsites (hj₅.code ▸ hland.2) (fun s hs' => ⟨hs', hv s hs',
        h.not_pending hperm (by simp) List.nodup_nil hs'⟩) hsize)
      (List.append_nil _).symm (by simp)

/-! ## Closing a region after its finally body -/

/-- a jump table to known addresses writes, after the pending position records, one
`lookupswitch`, each displacement counted from its own address -/
theorem dispatch_ok {dflt : Nat} {cases : List Nat} {u : Unit}
    (hm : e.methods = m :: rest) (h : dispatch dflt cases e = .ok u e') :
    ∃ m₁ m', e'.methods = m' :: rest ∧ m.Writes m₁ ∧
      m₁.Emits (.lookupSwitch (Int32.ofInt ((dflt : Int) - m₁.code.size))
        (cases.map fun t : Nat => Int32.ofInt ((t : Int) - m₁.code.size))) m₁.code.size m' := by
  unfold dispatch at h
  obtain ⟨_, e₁, h₁, h⟩ := EStateM.bind_eq_ok.mp h
  obtain ⟨-, m₁, hm₁, hw₁⟩ := writes_innermost flushPosition_writes h₁ hm
  obtain ⟨site, e₂, h₂, h⟩ := EStateM.bind_eq_ok.mp h
  obtain ⟨he₂, m₂, rest₂, hm₂, rfl⟩ := position_ok h₂
  subst e₂
  rw [hm₁] at hm₂
  obtain ⟨hm₂, -⟩ := List.cons.inj hm₂
  subst m₂
  obtain ⟨_, h, -⟩ := EStateM.map_eq_ok h
  obtain ⟨m₀, rest₀, m', hm₀, hact, rfl⟩ := onMethod_ok h
  rw [hm₁] at hm₀
  obtain ⟨hm₀, rfl⟩ := List.cons.inj hm₀
  subst m₀
  have hemit := MethodM.emit_emits hact
  rw [(MethodM.emit_ok hact).1] at hemit
  exact ⟨m₁, m', rfl, hw₁, hemit⟩

/-- **Ending a finally body** closes the innermost region, which was in its finally body and has
a selector register. With two resume points or more, all inside the code, the call's last jump is
a jump table with one case per resume point, landed on them in order and with the first as its
default. -/
theorem finallyClauseEnd_tracks (h : lm.Tracks m) (hm : e.methods = m :: rest)
    (he : finallyClauseEnd e = .ok () e') :
    ∃ m', e'.methods = m' :: rest ∧ (∃ L, m.code.Keeps m'.code L) ∧
      (∃ hs b, m.handlers = hs ++ [b] ∧ m'.handlers = hs ∧ b.state = .finallyBody ∧
        b.selector.isSome ∧ ((∀ r ∈ b.resumes, r < m.code.size) → 2 ≤ b.resumes.length →
          (⟨⟨m.code.size, m'.code.size⟩, b.resumes.take 1 ++ b.resumes⟩ : Jump).Lands m'.code
            m'.pending ∧
          ∃ s d cs, (⟨m.code.size, m'.code.size⟩ : Span).lastJump m'.code.layout =
            some (s, .lookupSwitch d cs) ∧ cs.length = b.resumes.length)) ∧
      (lm.step ⟨m.code.size, m'.code.size⟩ .finallyClauseEnd).Tracks m' := by
  unfold finallyClauseEnd at he
  obtain ⟨r, e₀, h₀, he⟩ := EStateM.bind_eq_ok.mp he
  obtain ⟨he₀, hs, b, hh, rfl, hst⟩ := openBlock_last hm h.strict h₀
  subst e₀
  dsimp -zeta only at he
  obtain ⟨b₀, e₁, h₁, he⟩ := EStateM.bind_eq_ok.mp he
  obtain ⟨he₁, hb₀⟩ := handler_last hm hh h₁
  subst e₁ b₀
  have hbody : b.state = .finallyBody := List.mem_singleton.mp hst
  cases hsel : b.selector with
  | none => rw [hsel] at he; cases he
  | some selector =>
  rw [hsel] at he
  dsimp -zeta only at he
  extract_lets -underBinder +onlyGivenNames close at he
  -- the way back to the resume points writes jumps landed at once; closing the region then lands
  -- only the jump past its rethrowing handler
  suffices hclose : ∀ e₂ m₂ (u₂ : Unit), e₂.methods = m₂ :: rest → m.Adds m₂ →
      m₂.handlers = m.handlers → close u₂ e₂ = .ok () e' →
      ∃ m', e'.methods = m' :: rest ∧ m₂.code.Keeps m'.code b.pending ∧
        m'.code.size = m₂.code.size ∧ m'.handlers = hs ∧ (∀ s ∈ m'.pending, s ∈ m₂.pending) ∧
        (lm.step ⟨m.code.size, m'.code.size⟩ .finallyClauseEnd).Tracks m' by
    rcases hres : b.resumes with _ | ⟨only, _ | ⟨second, more⟩⟩ <;> rw [hres] at he <;>
      dsimp -zeta only at he
    · obtain ⟨_, _, h₂, -⟩ := EStateM.bind_eq_ok.mp he
      cases h₂
    · obtain ⟨_, e₂, h₂, he⟩ := EStateM.bind_eq_ok.mp he
      obtain ⟨-, m₂, hm₂, hw₂⟩ := writes_innermost (kill_writes _) h₂ hm
      obtain ⟨u₃, e₃, h₃, he⟩ := EStateM.bind_eq_ok.mp he
      obtain ⟨m₁, m₃, hm₃, hw₁, -, hemit⟩ := branchBack_ok hm₂ h₃
      have hE := (hw₂.trans hw₁).emits hemit
      obtain ⟨m', hm', hk, -, hh', -, ht⟩ := hclose e₃ m₃ u₃ hm₃ hE.adds hE.handlers he
      refine ⟨m', hm', ⟨_, (hE.adds.keeps h.laid.code).trans hk⟩,
        ⟨hs, b, hh, hh', hbody, by simp [hsel], fun _ hlen => ?_⟩, ht⟩
      rw [hres] at hlen
      simp at hlen
    · obtain ⟨_, e₂, h₂, he⟩ := EStateM.bind_eq_ok.mp he
      obtain ⟨-, m₂, hm₂, hw₂⟩ := writes_innermost (getLocal_writes _) h₂ hm
      obtain ⟨_, e₃, h₃, he⟩ := EStateM.bind_eq_ok.mp he
      obtain ⟨-, m₃, hm₃, hw₃⟩ := writes_innermost (kill_writes _) h₃ hm₂
      obtain ⟨u₄, e₄, h₄, he⟩ := EStateM.bind_eq_ok.mp he
      obtain ⟨m₁, m₄, hm₄, hw₁, hemit⟩ := dispatch_ok hm₃ h₄
      have hE := ((hw₂.trans hw₃).trans hw₁).emits hemit
      obtain ⟨m', hm', hk, hsize, hh', hpend, ht⟩ := hclose e₄ m₄ u₄ hm₄ hE.adds hE.handlers he
      refine ⟨m', hm', ⟨_, (hE.adds.keeps h.laid.code).trans hk⟩,
        ⟨hs, b, hh, hh', hbody, by simp [hsel], fun hlt _ => ?_⟩, ht⟩
      -- the table is the last jump written, at an address pending nowhere, and closing the region
      -- keeps it
      have hlast := hE.lastJump h.laid.code rfl (le_refl _)
      have hsite := hE.lt_size
      have hfresh : ∀ s ∈ m₄.pending, s < m₁.code.size := fun s hs' => by
        rw [pending_eq_of_eq hE.flow hE.handlers] at hs'
        exact lt_of_lt_of_le (h.laid.lt_size hs') hsite.1
      have hnot : m₁.code.size ∉ b.pending := fun hb => by
        have := mem_pending_of_last hh hb
        rw [← pending_eq_of_eq hE.flow hE.handlers] at this
        exact lt_irrefl _ (hfresh _ this)
      obtain ⟨i', hlast', hr⟩ := hk.lastJump (le_refl _) hlast
      obtain ⟨-, rfl⟩ := Prod.mk.inj (hr.eq_of_not_mem hnot)
      rw [hsize]
      refine ⟨⟨hsize.ge, _, _, hlast', fun hp => lt_irrefl _ (hfresh _ (hpend _ hp)), ?_⟩,
        _, _, _, hlast', by simp [hres]⟩
      intro hsmall
      have hlt' : ∀ t ∈ only :: only :: second :: more, t < 2 ^ 31 := by
        intro t ht'
        have : t ∈ b.resumes := by rw [hres]; simp at ht' ⊢; tauto
        have := hlt t this
        have := hsite.2
        omega
      rw [hres, Instruction.targets_relative (by omega) hlt']
      rfl
  intro e₂ m₂ u₂ hm₂ hadd₂ hh₂ he
  dsimp -zeta only [close] at he
  obtain ⟨m₃, rest₃, m', hm₃, hact, rfl⟩ := onMethod_ok he
  rw [hm₂] at hm₃
  obtain ⟨hm₃, rfl⟩ := List.cons.inj hm₃
  subst m₃
  have h₂ := h.adds hadd₂
  have hh₂' : m₂.handlers = hs ++ [b] := hh₂.trans hh
  obtain ⟨_, _, hget, hact⟩ := EStateM.bind_eq_ok.mp hact
  cases hget
  rw [hh₂', List.getLast?_concat] at hact
  dsimp -zeta only at hact
  obtain ⟨_, m₃, hdrop, hact⟩ := EStateM.bind_eq_ok.mp hact
  obtain rfl : m₃ = { m₂ with handlers := m₂.handlers.dropLast } := by cases hdrop; rfl
  obtain ⟨m₄, hk₄, hz₄, hs₄, hf₄, hh₄, hact⟩ : ∃ m₄ : MethodState,
      m₂.code.Keeps m₄.code b.done.toList ∧ m₄.code.size = m₂.code.size ∧
        m₄.strict = m₂.strict ∧ m₄.flow = m₂.flow ∧ m₄.handlers = hs ∧
        (MethodM.freeTemp selector >>= fun _ => MethodM.restore b.entry) m₄ = .ok () m' := by
    have hdrop : m₂.handlers.dropLast = hs := by rw [hh₂']; exact List.dropLast_concat
    cases hdone : b.done with
    | none =>
      rw [hdone] at hact
      exact ⟨{ m₂ with handlers := m₂.handlers.dropLast }, .refl h₂.laid.code, rfl, rfl, rfl,
        hdrop, hact⟩
    | some done =>
      rw [hdone] at hact
      obtain ⟨_, m₄, h₄, hact⟩ := EStateM.bind_eq_ok.mp hact
      obtain ⟨hv, hm₄⟩ := MethodM.patchHere_ok h₄
      have hpend : done ∈ m₂.pending :=
        mem_pending_of_last hh₂' (by simp [HandlerBlock.pending, hdone])
      refine ⟨m₄, ?_, by rw [hm₄, Buffer.size_setSlot], by rw [hm₄], by rw [hm₄],
        by rw [hm₄]; exact hdrop, hact⟩
      rw [hm₄]
      exact (Buffer.keeps_landOne (h₂.laid.pending done hpend) hv).1
  obtain ⟨_, m₅, h₅, hact⟩ := EStateM.bind_eq_ok.mp hact
  have hj : m₄.SameJumps m' := trans_of MethodState.SameJumps
    ((MethodM.freeTemp_keeps _).ok h₅) ((MethodM.restore_keeps _).ok hact)
  have hk : m₂.code.Keeps m'.code b.pending := by
    rw [hj.code]
    exact hk₄.mono fun s hs' => by simp only [HandlerBlock.pending, List.mem_append]; exact .inr hs'
  have hperm : (m'.pending ++ b.pending).Perm (m₂.pending ++ []) := by
    rw [List.perm_iff_count]
    intro a
    simp only [MethodState.pending, hj.flow, hj.handlers, hf₄, hh₄, hh₂', List.flatMap_append,
      List.flatMap_singleton, List.count_append, List.append_nil]
    omega
  refine ⟨m', rfl, hk, by rw [hj.code, hz₄], hj.handlers.trans hh₄,
    fun s hs' => by simpa using hperm.subset (List.mem_append_left _ hs'), ?_⟩
  have hold := h₂.agrees.keeps hk
  refine h₂.step (N := []) hk (hj.strict.trans hs₄) hperm (by simp) List.nodup_nil
    ⟨hj.flow ▸ hf₄ ▸ hold.ifs, hj.flow ▸ hf₄ ▸ hold.elses, hj.flow ▸ hf₄ ▸ hold.frames, ?_⟩
    (List.append_nil _).symm (by simp) (List.append_nil _).symm (by simp)
  have hregs := List.Forall₂.dropLast hold.regions
  rw [hh₂', List.dropLast_concat] at hregs
  rw [hj.handlers, hh₄]
  exact hregs

/-! ## Entering the finally body -/

end Emitter

/-- Region `b` of code `c` starts its finally body at `t` in code `c'`, where the branches at `P'`
are pending, and is then `b'`: in its finally body, with the selector register it had, which the
body's first instruction stores the resume index into. Two more call sites, at `S`, enter the body
after those the region had, and the jump of every call site lands at `t`: the new ones, and the
old ones whose jumps were known. -/
structure HandlerBlock.StartsBody (q : Pool) (c c' : Buffer) (P' : List Nat) (b b' : HandlerBlock)
    (t : Nat) : Prop where
  before : b.state ≠ .finallyBody
  state : b'.state = .finallyBody
  selector : b'.selector = b.selector
  store : ∀ sel, b.selector = some sel → (t, Instruction.setLocalOf sel) ∈ c'.layout
  sites : ∃ S : List Nat, S.length = 2 ∧ b'.resumes = b.resumes ++ S.map (· + 4) ∧
    S.Pairwise (· < ·) ∧ (∀ s ∈ S, c.size ≤ s ∧ s + 4 < c'.size) ∧
    (∀ j s, S[j]? = some s → CallSiteAt q c' (b.resumes.length + j) (s + 4)) ∧
    ∀ s ∈ b.callSites ++ S, (s ∈ S ∨ c.JumpAt ⟨s, s + 4⟩ s) →
      (⟨⟨s, s + 4⟩, [t]⟩ : Jump).Lands c' P'

namespace Emitter

/-- The handler a finally region has for every other exception saves the exception, enters the
body through one more call site into region `index`, and rethrows it: it writes after the code,
adds that call site, and leaves no position record pending. The rest of the call runs from
there. -/
theorem rethrow_ok {α : Type} {index : Nat} {K : Unit → EmitM α} {x : α}
    (hm : e.methods = m :: rest) (hl : m.code.Laid)
    (h : (do
      enterHandler index
      let exception ← allocTemp
      setLocal exception
      callSite index
      getLocal exception
      freeTemp exception
      let u ← throwValue
      K u) e = .ok x e') :
    ∃ e₁ m₁ site, e₁.methods = m₁ :: rest ∧ m.Adds m₁ ∧
      m₁.handlers = m.handlers.modify index (HandlerBlock.enter site) ∧ m.code.size ≤ site ∧
      CallSiteAt e₁.assembler.pool m₁.code ((m.handlers[index]?).getD default).resumes.length
        (site + 4) ∧
      e.assembler.pool.Extends e₁.assembler.pool ∧ e₁.Flushed ∧ K () e₁ = .ok x e' := by
  obtain ⟨_, e₁, h₁, h⟩ := EStateM.bind_eq_ok.mp h
  obtain ⟨exception, e₂, h₂, h⟩ := EStateM.bind_eq_ok.mp h
  obtain ⟨_, e₃, h₃, h⟩ := EStateM.bind_eq_ok.mp h
  obtain ⟨_, e₄, h₄, h⟩ := EStateM.bind_eq_ok.mp h
  obtain ⟨_, e₅, h₅, h⟩ := EStateM.bind_eq_ok.mp h
  obtain ⟨_, e₆, h₆, h⟩ := EStateM.bind_eq_ok.mp h
  obtain ⟨u, e₇, h₇, h⟩ := EStateM.bind_eq_ok.mp h
  obtain ⟨-, m₃, hm₃, hw₃⟩ := (trans_of Emitter.Writes (enterHandler_writes _ _ _ _ h₁)
    (trans_of Emitter.Writes (allocTemp_writes _ _ _ h₂) (setLocal_writes _ _ _ _ h₃))).innermost hm
  have hk₃ := hw₃.keeps hl
  obtain ⟨-, m₄, hm₄, hadd₄⟩ := adds_innermost (callSite_adds _) h₄ hm₃
  obtain ⟨-, hq₄, -, m₄', site, hm₄', -, -, -, hh₄, hsite, -, hcs⟩ := callSite_ok hm₃ hk₃.laid h₄
  obtain rfl : m₄ = m₄' := (List.cons.inj (hm₄.symm.trans hm₄')).1
  obtain ⟨-, m₇, hm₇, hw₇⟩ := (trans_of Emitter.Writes (getLocal_writes _ _ _ _ h₅)
    (trans_of Emitter.Writes (freeTemp_writes _ _ _ _ h₆) (throwValue_writes _ _ _ h₇))).innermost hm₄
  have hq₃ : e.assembler.pool.Extends e₃.assembler.pool :=
    (trans_of Emitter.Interns ((enterHandler_interns _).ok h₁)
      (trans_of Emitter.Interns (allocTemp_interns.ok h₂) ((setLocal_interns _).ok h₃))).assembler.pool
  have hq₇ : e₄.assembler.pool.Extends e₇.assembler.pool :=
    (trans_of Emitter.Interns ((getLocal_interns _).ok h₅)
      (trans_of Emitter.Interns ((freeTemp_interns _).ok h₆) (throwValue_interns.ok h₇))).assembler.pool
  rw [hw₃.handlers] at hh₄ hcs
  refine ⟨e₇, m₇, site, hm₇, ((Adds.of_writes hw₃).trans hadd₄).trans (Adds.of_writes hw₇),
    hw₇.handlers.trans hh₄, hk₃.size.trans hsite, hcs.keeps (hw₇.keeps hcs.laid) hq₇,
    hq₃.trans (hq₄.trans hq₇), simple_flushed h₇, h⟩

/-- **Entering the finally body** of the innermost region, which has one and is not in it yet:
the normal path and then the handler that rethrows every other exception each enter the body
through a call site, and the body starts at the code's end by storing the resume index
(`HandlerBlock.StartsBody`). -/
theorem finallyClauseBegin_tracks (h : lm.Tracks m) (hm : e.methods = m :: rest)
    (he : finallyClauseBegin e = .ok () e') :
    ∃ m', e'.methods = m' :: rest ∧ (∃ L, m.code.Keeps m'.code L) ∧
      (∃ hs b b' t, m.handlers = hs ++ [b] ∧ m'.handlers = hs ++ [b'] ∧
        b.StartsBody e'.assembler.pool m.code m'.code m'.pending b' t) ∧
      (lm.step ⟨m.code.size, m'.code.size⟩ .finallyClauseBegin).Tracks m' := by
  unfold finallyClauseBegin at he
  obtain ⟨r, e₀, h₀, he⟩ := EStateM.bind_eq_ok.mp he
  obtain ⟨he₀, hs, b, hh, rfl, hst⟩ := openBlock_last hm h.strict h₀
  subst e₀
  have hne : b.state ≠ .finallyBody := BlockState.ne_finallyBody hst (by decide)
  dsimp -zeta only at he
  obtain ⟨_, e₁, h₁, he⟩ := EStateM.bind_eq_ok.mp he
  obtain ⟨-, m₁, hm₁, hw₁⟩ := writes_innermost flushPosition_writes h₁ hm
  obtain ⟨rangeEnd, e₂, h₂, he⟩ := EStateM.bind_eq_ok.mp he
  obtain ⟨he₂, m₂, rest₂, hm₂, rfl⟩ := position_ok h₂
  subst e₂
  rw [hm₁] at hm₂
  obtain ⟨hm₂, -⟩ := List.cons.inj hm₂
  subst m₂
  have hh₁ : m₁.handlers = hs ++ [b] := hw₁.handlers.trans hh
  obtain ⟨b₀, e₃, h₃, he⟩ := EStateM.bind_eq_ok.mp he
  obtain ⟨he₃, hb₀⟩ := handler_last hm₁ hh₁ h₃
  subst e₃ b₀
  extract_lets -underBinder +onlyGivenNames enter at he
  have h₁ := h.adds (Adds.of_writes hw₁)
  have hk₁ := hw₁.keeps h.laid.code
  by_cases hf : b.hasFinally = true
  swap
  · rw [if_pos (by simpa using hf)] at he
    obtain ⟨_, _, hv, _⟩ := EStateM.bind_eq_ok.mp he
    exact (violation_ok hm₁ h₁.strict hv).elim
  rw [if_neg (by simp [hf])] at he
  suffices henter : ∀ e₄ m₄ b₁, e₄.methods = m₄ :: rest → m₄.handlers = hs ++ [b₁] →
      lm.Tracks m₄ → m.code.Keeps m₄.code [] → b₁.resumes = b.resumes →
      b₁.callSites = b.callSites → b₁.selector = b.selector → enter () e₄ = .ok () e' →
      ∃ m', e'.methods = m' :: rest ∧ (∃ L, m.code.Keeps m'.code L) ∧
        (∃ b' t, m'.handlers = hs ++ [b'] ∧
          b.StartsBody e'.assembler.pool m.code m'.code m'.pending b' t) ∧ lm.Tracks m' by
    simp only [MethodIntent.step]
    by_cases hp : b.state = .protectedBody
    · rw [if_pos hp] at he
      obtain ⟨⟨⟩, e₄, h₄, he⟩ := EStateM.bind_eq_ok.mp he
      obtain ⟨-, _, hm₄, rfl⟩ := modifyHandler_last hm₁ hh₁ h₄
      obtain ⟨m', hm', hk, ⟨b', t, hh', hb'⟩, ht⟩ := henter e₄ _ _ hm₄ rfl
        (h₁.setLast hh₁ rfl fun _ hr => ⟨hr.hasFinally, hr.skip, hr.ends, hr.clauses⟩) hk₁ rfl rfl
        rfl he
      exact ⟨m', hm', hk, ⟨hs, b, b', t, hh, hh', hb'⟩, ht⟩
    · rw [if_neg hp] at he
      obtain ⟨m', hm', hk, ⟨b', t, hh', hb'⟩, ht⟩ := henter e₁ m₁ b hm₁ hh₁ h₁ hk₁ rfl rfl rfl he
      exact ⟨m', hm', hk, ⟨hs, b, b', t, hh, hh', hb'⟩, ht⟩
  intro e₄ m₄ b₁ hm₄ hh₄ h₄ hk₄ hres₁ hcalls₁ hsel₁ he
  dsimp -zeta only [enter] at he
  obtain ⟨_, e₅, h₅, he⟩ := EStateM.bind_eq_ok.mp he
  obtain ⟨-, m₅, hm₅, hadd₅⟩ := adds_innermost (callSite_adds _) h₅ hm₄
  obtain ⟨-, hq₅, -, m₅', site₁, hm₅', -, -, -, hh₅, hsite₁, -, hcs₁⟩ :=
    callSite_ok hm₄ h₄.laid.code h₅
  obtain rfl : m₅ = m₅' := (List.cons.inj (hm₅.symm.trans hm₅')).1
  obtain ⟨done, e₆, h₆, he⟩ := EStateM.bind_eq_ok.mp he
  obtain ⟨-, m₆, hm₆, hemit⟩ := reserve_innermost h₆ hm₅
  obtain ⟨target, e₇, h₇, he⟩ := EStateM.bind_eq_ok.mp he
  obtain ⟨he₇, m₇, rest₇, hm₇, rfl⟩ := position_ok h₇
  subst e₇
  rw [hm₆] at hm₇
  obtain ⟨hm₇, -⟩ := List.cons.inj hm₇
  subst m₇
  obtain ⟨_, e₈, h₈, he⟩ := EStateM.bind_eq_ok.mp he
  obtain ⟨-, m₈, hm₈, rfl⟩ := appendEntry_last hm₆ h₈
  -- up to here the steps only write and add calls into the body, which the intent does not follow
  have t₅ := h₄.adds hadd₅
  have t₆ := t₅.adds hemit.adds
  have t₈ : lm.Tracks { m₆ with exceptions := m₆.exceptions ++ [⟨b.tryStart.toUInt32,
      m₁.code.size.toUInt32, m₆.code.size.toUInt32, 0, 0⟩] } :=
    ⟨t₆.strict, ⟨t₆.laid.code, t₆.laid.pending⟩, t₆.nodup, t₆.agrees, t₆.jumps, t₆.labels⟩
  obtain ⟨e₁₅, m₁₅, site₂, hm₁₅, hadd₁₅, hh₁₂, hsite₂, hcs₂, hq₁₅, hf₁₅, he⟩ :=
    rethrow_ok hm₈ t₈.laid.code he
  have t₁₅ := t₈.adds hadd₁₅
  have hlast : ∀ {f : HandlerBlock → HandlerBlock}, (hs ++ [b₁]).modify hs.length f = hs ++ [f b₁] :=
    List.modify_concat _ _ hs
  have hh₁₅ : m₁₅.handlers = hs ++ [(b₁.enter site₁).enter site₂] := by
    rw [hh₁₂]
    change m₆.handlers.modify _ _ = _
    rw [hemit.handlers, hh₅, hh₄, hlast, List.modify_concat]
  have hk₁ : ((m₄.handlers[hs.length]?).getD default).resumes.length = b.resumes.length := by
    rw [hh₄, List.getElem?_concat_length, Option.getD_some, hres₁]
  have hk₂ : (({ m₆ with exceptions := m₆.exceptions ++ [⟨b.tryStart.toUInt32,
      m₁.code.size.toUInt32, m₆.code.size.toUInt32, 0, 0⟩] } : MethodState).handlers[hs.length]?.getD
        default).resumes.length = b.resumes.length + 1 := by
    change ((m₆.handlers[hs.length]?).getD default).resumes.length = _
    rw [hemit.handlers, hh₅, hh₄, hlast, List.getElem?_concat_length, Option.getD_some]
    simp [HandlerBlock.enter, hres₁]
  rw [hk₁] at hcs₁
  rw [hk₂] at hcs₂
  obtain ⟨b₂, hb₂⟩ : ∃ b₂, b₂ = (b₁.enter site₁).enter site₂ := ⟨_, rfl⟩
  rw [← hb₂] at hh₁₅
  obtain ⟨b₃, e₁₆, h₁₆, he⟩ := EStateM.bind_eq_ok.mp he
  obtain ⟨he₁₆, hb₃⟩ := handler_last hm₁₅ hh₁₅ h₁₆
  subst e₁₆ b₃
  obtain ⟨_, e₁₇, h₁₇, he⟩ := EStateM.bind_eq_ok.mp he
  have hf₁₇ := onMethod_flushed hf₁₅ h₁₇
  have hq₁₇ := ((modifyHandler_interns _ _).ok h₁₇).assembler.pool
  obtain ⟨-, m₁₇, hm₁₇, rfl⟩ := modifyHandler_last hm₁₅ hh₁₅ h₁₇
  obtain ⟨_, e₁₈, h₁₈, he⟩ := EStateM.bind_eq_ok.mp he
  have hf₁₈ := onMethod_flushed hf₁₇ h₁₈
  have hq₁₈ := ((onMethod_interns _).ok h₁₈).assembler.pool
  obtain ⟨m₁₇, rest₁₇, m₁₈, hm₁₇', hact, rfl⟩ := onMethod_ok h₁₈
  rw [hm₁₇] at hm₁₇'
  obtain ⟨hm₁₇', rfl⟩ := List.cons.inj hm₁₇'
  subst m₁₇
  obtain ⟨_, m₁₉, h₁₉, hact⟩ := EStateM.bind_eq_ok.mp hact
  obtain ⟨hv, rfl⟩ := MethodM.forM_patchHere_ok h₁₉
  change ∀ s ∈ b₂.callSites, S24.Fits ((m₁₅.code.size : Int) - s - 4) at hv
  obtain ⟨_, m₂₀, h₂₀, h₂₁⟩ := EStateM.bind_eq_ok.mp hact
  have hj := trans_of MethodState.SameJumps
    ((MethodM.restore_keeps _).ok h₂₀) ((MethodM.adjustStack_keeps _).ok h₂₁)
  have hz₁₈ : m₁₈.code.size = m₁₅.code.size := by rw [hj.code, Buffer.size_foldl_setSlot]
  obtain ⟨insts, hi⟩ := t₁₅.laid.code
  have hcall : ∀ s ∈ b₂.callSites, s ∈ m₁₅.pending := fun s hs' =>
    mem_pending_of_last hh₁₅ (by simp only [HandlerBlock.pending, List.mem_append]; tauto)
  have hland := Buffer.keeps_landAll hi fun s hs' =>
    ⟨(Buffer.branchAt_iff.mp (t₁₅.laid.pending s (hcall s hs'))).2, hv s hs'⟩
  have hk₁₈ : m₁₅.code.Keeps m₁₈.code b₂.callSites := by
    rw [hj.code]
    exact hland.1
  obtain ⟨m', hm', hw', hq', hstore⟩ : ∃ m', e'.methods = m' :: rest ∧ m₁₈.Writes m' ∧
      e₁₇.assembler.pool.Extends e'.assembler.pool ∧
      ∀ sel, b₂.selector = some sel → (m₁₈.code.size, Instruction.setLocalOf sel) ∈ m'.code.layout := by
    cases hsel : b₂.selector with
    | none =>
      rw [hsel] at he
      cases he
      exact ⟨m₁₈, rfl, refl_of _ _, .refl _, fun _ hs' => by cases hs'⟩
    | some selector =>
      rw [hsel] at he
      dsimp only at he
      have hq := ((setLocal_interns _).ok he).assembler.pool
      rw [setLocal_eq] at he
      obtain ⟨_, he, -⟩ := EStateM.map_eq_ok he
      obtain ⟨m', hm', hE⟩ := emits_of_flushed hf₁₈ rfl he
      refine ⟨m', hm', hE.writes (by unfold Instruction.setLocalOf; split_ifs <;> rfl), hq,
        fun sel hs' => ?_⟩
      cases hs'
      exact hE.mem_layout hk₁₈.laid
  refine ⟨m', hm', ?_⟩
  -- the jump past the catch-all is pending on the region in place of any it had; one step from
  -- before that jump covers it all
  have hflow : m'.flow = m₁₅.flow := hw'.flow.trans hj.flow
  have hh' : m'.handlers =
      hs ++ [{ b₂ with done := some done, state := .finallyBody, callSites := [] }] :=
    hw'.handlers.trans hj.handlers
  have hk' : m₁₅.code.Keeps m'.code b₂.callSites := by
    have := hk₁₈.trans (hw'.keeps hk₁₈.laid)
    rwa [List.append_nil] at this
  have hk₅ := hadd₅.keeps h₄.laid.code
  have hk₆ := hemit.keeps t₅.laid.code
  have hk₁₅ := hadd₁₅.keeps t₈.laid.code
  obtain ⟨-, -, -, -, A, hA, -, N₂, hN₂, hnd₂, hmem₂⟩ := hadd₁₅
  have hfresh : ∀ s ∈ N₂, m₆.code.size ≤ s := fun s hs' =>
    (MethodState.le_of_mem_place hA (hmem₂ s hs').choose_spec.choose_spec).1
  have hp₁₅ : m₁₅.pending.Perm (m₅.pending ++ N₂) :=
    hN₂.trans ((List.Perm.of_eq (pending_eq_of_eq hemit.flow hemit.handlers)).append_right _)
  have hperm : (m'.pending ++ (b₂.callSites ++ b₂.done.toList)).Perm
      (m₅.pending ++ (N₂ ++ [done])) := by
    have hset : (m'.pending ++ (b₂.callSites ++ b₂.done.toList)).Perm
        (m₁₅.pending ++ [done]) :=
      pending_setLast hflow hh₁₅ hh' (by
        rw [List.perm_iff_count]
        intro a
        simp only [HandlerBlock.pending, Option.toList_some, List.count_append, List.count_nil]
        omega)
    refine hset.trans ?_
    rw [← List.append_assoc]
    exact hp₁₅.append_right _
  have hN : ∀ s ∈ N₂ ++ [done], m₅.code.size ≤ s ∧ m'.code.BranchAt s := by
    intro s hs'
    rcases List.mem_append.mp hs' with hs' | hs'
    · exact ⟨hk₆.size.trans (hfresh s hs'),
        hk'.branchAt (t₁₅.laid.pending s (hp₁₅.symm.subset (List.mem_append_right _ hs')))⟩
    · rw [List.mem_singleton.mp hs']
      exact ⟨hemit.lt_size.1, (hk₁₅.trans hk').branchAt (hemit.branchAt t₅.laid.code)⟩
  have hnd : (N₂ ++ [done]).Nodup := by
    refine List.nodup_append.mpr ⟨hnd₂, List.nodup_singleton _, fun a ha b hb => ?_⟩
    rw [List.mem_singleton.mp hb]
    have := hfresh a ha
    have := hemit.lt_size.2
    omega
  have hold := t₁₅.agrees.keeps hk'
  rw [hh₁₅] at hold
  have hmatch : lm.Matches m'.code m'.flow m'.handlers := by
    rw [hflow, hh']
    refine ⟨hold.ifs, hold.elses, hold.frames, ?_⟩
    obtain ⟨rs, ri, hlr, hrs, hri⟩ := List.Forall₂.concat_right hold.regions
    rw [hlr]
    exact List.rel_append hrs (.cons ⟨hri.hasFinally, hri.skip, hri.ends, hri.clauses⟩ .nil)
  have hq₈ : e₅.assembler.pool.Extends e₈.assembler.pool :=
    (trans_of Emitter.Interns ((reserve_interns _).ok h₆) ((onMethod_interns _).ok h₈)).assembler.pool
  have hq₁₅' : e₁₅.assembler.pool.Extends e'.assembler.pool := hq₁₇.trans hq'
  refine ⟨⟨_, (hk₄.trans hk₅).trans (hk₆.trans (hk₁₅.trans hk'))⟩,
    ⟨_, m₁₅.code.size, hh', hne, rfl, ?_, ?_, [site₁, site₂], rfl, ?_, ?_, ?_, ?_, ?_⟩, ?_⟩
  · rw [hb₂]
    exact hsel₁
  · intro sel hs'
    rw [← hz₁₈]
    exact hstore sel (by rw [hb₂]; exact hsel₁.trans hs')
  · rw [hb₂]
    simp [HandlerBlock.enter, hres₁]
  · have h₁ := hcs₁.lt_size
    have h₂ : m₆.code.size ≤ site₂ := hsite₂
    have h₃ := hk₆.size
    exact List.pairwise_pair.mpr (by omega)
  · have h₁ := hcs₁.lt_size
    have h₂ := hcs₂.lt_size
    have h₃ := hk₄.size
    have h₄ := hk₆.size.trans (hk₁₅.trans hk').size
    have h₅ := hk'.size
    have h₆ : m₆.code.size ≤ site₂ := hsite₂
    have h₇ := hk₆.size
    intro s hs'
    simp only [List.mem_cons, List.not_mem_nil, or_false] at hs'
    rcases hs' with rfl | rfl <;> omega
  · intro j s hj
    rcases j with _ | _ | j
    · cases hj
      exact hcs₁.keeps (hk₆.trans (hk₁₅.trans hk')) (hq₈.trans (hq₁₅.trans hq₁₅'))
    · cases hj
      exact hcs₂.keeps hk' hq₁₅'
    · simp at hj
  · intro s hs' hjs
    have hsc : s ∈ b₂.callSites := by
      rw [hb₂]
      simpa [HandlerBlock.enter, hcalls₁] using hs'
    have hjump : m₁₅.code.JumpAt ⟨s, s + 4⟩ s := by
      rcases hjs with hjs | hjs
      · simp only [List.mem_cons, List.not_mem_nil, or_false] at hjs
        rcases hjs with rfl | rfl
        · exact hcs₁.jumpAt_site.keeps (hk₆.trans hk₁₅)
        · exact hcs₂.jumpAt_site
      · exact hjs.keeps ((hk₄.trans hk₅).trans (hk₆.trans hk₁₅))
    have hnot : s ∉ m'.pending :=
      t₅.not_pending hperm (fun s hs => (hN s hs).1) hnd (List.mem_append_left _ hsc)
    have hl₁₈ : m₁₈.code.layout = m₁₅.code.layout.map (Instruction.land b₂.callSites m₁₅.code.size) := by
      rw [hj.code]
      exact hland.2
    exact (Jump.lands_of_jumpAt hjump hl₁₈ hsc (hv s hsc) hk₁₈.size hnot).keeps hk₁₈.laid
      (hw'.keeps hk₁₈.laid) (by simp) fun s hs => .inl hs
  refine t₅.step (L := b₂.callSites ++ b₂.done.toList) (N := N₂ ++ [done])
    ((hk₆.trans (hk₁₅.trans hk')).mono fun s hs' => ?_)
    ((hw'.strict.trans (hj.strict.trans t₁₅.strict)).trans t₅.strict.symm) hperm hN hnd hmatch
    (List.append_nil _).symm (by simp) (List.append_nil _).symm (by simp)
  simp only [List.nil_append] at hs'
  exact List.mem_append_left _ hs'
end Emitter

end AbcKit.Emit
