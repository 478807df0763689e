import AbcKit.Proofs.Regions
/-!
The calls on try regions keep a method's record.

Each of `try_begin`, `catch_clauses_begin`, `catch_clause`, `catch_clauses_end`,
`finally_clause_begin` and `finally_clause_end`, when it succeeds under strict ordering, changes
the innermost method as its record says: it opens, ends or closes the innermost region at the
address current at the call, or appends to the exception table the entry the record appends.
The code they write keeps its layout, and the new entry is placed: its range was ended by an
earlier call, its handler starts here. An entry of a catch clause protects the range of its
region, which no earlier entry strictly contains: the entries of the regions around it end after
it (they are made later) or were made before the region opened. The catch-all of a finally body
ends here, after every entry made so far.
-/
namespace AbcKit

/-- changing the last member of a list -/
theorem List.modify_concat {α : Type} (f : α → α) (a : α) :
    ∀ l : List α, (l ++ [a]).modify l.length f = l ++ [f a]
  | [] => rfl
  | x :: l => by
    rw [List.cons_append, List.length_cons, List.modify_succ_cons, modify_concat f a l,
      List.cons_append]

/-- a list whose left side ends in `a` ends in a member related to `a` -/
theorem List.Forall₂.concat_left {α β : Type} {S : α → β → Prop} {l : List α} {a : α}
    {l' : List β} (h : List.Forall₂ S (l ++ [a]) l') :
    ∃ l₀ b, l' = l₀ ++ [b] ∧ List.Forall₂ S l l₀ ∧ S a b := by
  obtain ⟨l₀, b, rfl, h₀, hab⟩ := List.Forall₂.concat_right (List.Forall₂.flip (R := flip S) h)
  exact ⟨l₀, b, rfl, List.Forall₂.flip h₀, hab⟩

theorem toNat_toUInt32_of_lt {n : Nat} (h : n < 2 ^ 32) : n.toUInt32.toNat = n := by
  simp only [Nat.toUInt32]
  exact Nat.mod_eq_of_lt h

end AbcKit

namespace AbcKit.Emit

open MethodState

/-! ## The pending branches of changed regions -/

theorem HandlerBlock.SameRange.trans {b b' b'' : HandlerBlock} (h : b.SameRange b')
    (h' : b'.SameRange b'') : b.SameRange b'' :=
  ⟨h'.state.trans h.state, h'.tryStart.trans h.tryStart, h'.tryEnd.trans h.tryEnd,
    h'.hasFinally.trans h.hasFinally⟩

theorem HandlerBlock.SameRange.forall₂_trans {l l' l'' : List HandlerBlock}
    (h : List.Forall₂ SameRange l l') (h' : List.Forall₂ SameRange l' l'') :
    List.Forall₂ SameRange l l'' := by
  induction h generalizing l'' with
  | nil => exact h'
  | cons hb _ ih =>
    cases h' with
    | cons hb' h' => exact .cons (hb.trans hb') (ih h')

namespace MethodState

variable {m : MethodState} {S : List Nat}

/-- when the regions after a common part change, a branch pending afterwards was pending before
or is one of a new region's -/
theorem mem_pending_of_handlers {hs B B₀ : List HandlerBlock} (hh : m.handlers = hs ++ B₀)
    {s : Nat} (h : s ∈ ({ m with handlers := hs ++ B } : MethodState).pending) :
    s ∈ m.pending ∨ ∃ b ∈ B, s ∈ b.pending := by
  simp only [pending, hh, List.flatMap_append, List.mem_append, List.mem_flatMap] at h ⊢
  rcases h with h | h | h
  · exact .inl (.inl h)
  · exact .inl (.inr (.inl h))
  · exact .inr h

/-- changing the regions keeps a method ready when the new regions leave only branches that
were pending or tracked -/
theorem Ready.regions {hs B B₀ : List HandlerBlock} {T : List Nat} (h : m.Ready S)
    (hh : m.handlers = hs ++ B₀) (hB : ∀ b ∈ B, ∀ s ∈ b.pending, s ∈ m.pending ∨ s ∈ S)
    (hT : ∀ s ∈ T, s ∈ m.pending ∨ s ∈ S) : ({ m with handlers := hs ++ B } : MethodState).Ready T := by
  refine h.repend rfl (fun s hs => ?_) hT
  rcases mem_pending_of_handlers hh hs with hs | ⟨b, hb, hs⟩
  · exact .inl hs
  · exact hB b hb s hs

theorem mem_pending_of_last {hs : List HandlerBlock} {b : HandlerBlock}
    (hh : m.handlers = hs ++ [b]) {s : Nat} (h : s ∈ b.pending) : s ∈ m.pending := by
  simp only [pending, hh, List.flatMap_append, List.flatMap_singleton, List.mem_append]
  exact .inr (.inr h)

theorem Recorded.ready {R : MethodRecord} (h : m.Recorded R) : m.Ready [] :=
  ⟨h.laid, fun _ hs => by cases hs⟩

theorem Emits.lt_size {i : Instruction} {site : Nat} (h : m.Emits i site m') :
    m.code.size ≤ site ∧ site < m'.code.size := by
  have hsize := h.size
  obtain ⟨-, -, -, -, A, -, hi, rfl, -⟩ := h
  have := List.length_pos_iff.mpr (Instruction.bytes_ne_nil hi)
  omega

theorem Emits.ready {m' : MethodState} {op : BranchOp} {site : Nat}
    (h : m.Emits (.branch op 0) site m') (hr : m.Ready S) : m'.Ready (site :: S) := by
  refine ⟨(h.adds.ready hr).1, fun s hs => ?_⟩
  rcases List.mem_cons.mp hs with rfl | hs
  · exact h.branchAt hr.1.code
  · exact (h.adds.ready hr).2 s hs

end MethodState

/-! ## Reading the innermost method -/

namespace Emitter

variable {e e' : Emitter} {m : MethodState} {rest : List MethodState}

theorem address_of_flush {u : Unit} (h : flushPosition e = .ok u e') :
    e.address = Intent.position e'.methods.head? := by
  unfold address
  rw [h]

theorem Writes.innermost (h : e.Writes e') (hm : e.methods = m :: rest) :
    e'.config = e.config ∧ ∃ m', e'.methods = m' :: rest ∧ m.Writes m' := by
  have hw := h.methods
  rw [hm] at hw
  obtain ⟨m', hm', hmw⟩ := hw.of_cons_left
  exact ⟨h.config, m', hm', hmw⟩

theorem writes_innermost {α : Type} {act : EmitM α} {x : α} (hw : OnSuccess Emitter.Writes act)
    (h : act e = .ok x e') (hm : e.methods = m :: rest) :
    e'.config = e.config ∧ ∃ m', e'.methods = m' :: rest ∧ m.Writes m' :=
  (hw e x e' h).innermost hm

theorem Adds.innermost (h : e.Adds e') (hm : e.methods = m :: rest) :
    e'.config = e.config ∧ ∃ m', e'.methods = m' :: rest ∧ m.Adds m' := by
  have hw := h.methods
  rw [hm] at hw
  obtain ⟨m', hm', hmw⟩ := hw.of_cons_left
  exact ⟨h.config, m', hm', hmw⟩

/-- a step that writes and adds branches, read on the innermost method -/
theorem adds_innermost {α : Type} {act : EmitM α} {x : α} (hw : OnSuccess Emitter.Adds act)
    (h : act e = .ok x e') (hm : e.methods = m :: rest) :
    e'.config = e.config ∧ ∃ m', e'.methods = m' :: rest ∧ m.Adds m' :=
  (hw e x e' h).innermost hm

theorem reserve_innermost {op : BranchOp} {site : Nat} (h : reserve op e = .ok site e')
    (hm : e.methods = m :: rest) :
    e'.config = e.config ∧ ∃ m', e'.methods = m' :: rest ∧ m.Emits (.branch op 0) site m' := by
  rw [reserve_eq] at h
  obtain ⟨hc, m₀, rest₀, m', hm₀, hm', hemit⟩ := emit_emits h
  rw [hm] at hm₀
  cases hm₀
  exact ⟨hc, m', hm', hemit⟩

/-- under strict ordering the innermost region is open, in one of the expected states -/
theorem openBlock_last {expected : List BlockState} {what : String} {r : Option Nat}
    (hm : e.methods = m :: rest) (hs : m.strict = true) (h : openBlock expected what e = .ok r e') :
    e' = e ∧ ∃ hs b, m.handlers = hs ++ [b] ∧ r = some hs.length ∧ b.state ∈ expected := by
  unfold openBlock at h
  obtain ⟨m₁, e₁, h₁, hk⟩ := EStateM.bind_eq_ok.mp h
  obtain ⟨rfl, rest₁, hm₁⟩ := current_ok h₁
  rw [hm] at hm₁
  cases hm₁
  cases hb : m.handlers.getLast? with
  | none =>
    rw [hb] at hk
    obtain ⟨_, _, hv, _⟩ := EStateM.bind_eq_ok.mp hk
    exact (violation_ok hm hs hv).elim
  | some b =>
    rw [hb] at hk
    dsimp only at hk
    have hsplit : m.handlers = m.handlers.dropLast ++ [b] :=
      (List.dropLast_append_getLast? b hb).symm
    by_cases hst : expected.contains b.state = true
    · rw [if_pos hst] at hk
      cases hk
      refine ⟨rfl, _, b, hsplit, ?_, List.contains_iff_mem.mp hst⟩
      rw [List.length_dropLast]
    · rw [if_neg hst] at hk
      obtain ⟨_, _, hv, _⟩ := EStateM.bind_eq_ok.mp hk
      exact (violation_ok hm hs hv).elim

theorem handler_last {hs : List HandlerBlock} {b b' : HandlerBlock}
    (hm : e.methods = m :: rest) (hh : m.handlers = hs ++ [b])
    (h : handler hs.length e = .ok b' e') : e' = e ∧ b' = b := by
  obtain ⟨rfl, m₀, rest₀, hm₀, rfl⟩ := handler_ok h
  rw [hm] at hm₀
  cases hm₀
  simp [hh]

/-- changing the innermost region changes the last of the regions -/
theorem modifyHandler_last {hs : List HandlerBlock} {b : HandlerBlock}
    {f : HandlerBlock → HandlerBlock} {u : Unit} (hm : e.methods = m :: rest)
    (hh : m.handlers = hs ++ [b]) (h : modifyHandler hs.length f e = .ok u e') :
    e'.config = e.config ∧
      ∃ m', e'.methods = m' :: rest ∧ m' = { m with handlers := hs ++ [f b] } := by
  obtain ⟨m₀, rest₀, hm₀, rfl⟩ := onMethod_modify_ok h
  rw [hm] at hm₀
  cases hm₀
  refine ⟨rfl, _, rfl, ?_⟩
  rw [hh, List.modify_concat]

theorem appendEntry_last {x : ExceptionEntry} {u : PUnit} (hm : e.methods = m :: rest)
    (h : onMethod (fun _ => (modify fun m => { m with exceptions := m.exceptions ++ [x] } :
      MethodM PUnit)) e = .ok u e') :
    e'.config = e.config ∧
      ∃ m', e'.methods = m' :: rest ∧ m' = { m with exceptions := m.exceptions ++ [x] } := by
  obtain ⟨m₀, rest₀, hm₀, rfl⟩ := onMethod_modify_ok h
  rw [hm] at hm₀
  cases hm₀
  exact ⟨rfl, _, rfl, rfl⟩

theorem dispatch_adds (dflt : Nat) (cases : List Nat) : OnSuccess Emitter.Adds (dispatch dflt cases) :=
  (writes_adds flushPosition_writes).bind fun _ => (writes_adds position_writes).bind fun _ =>
    (emitRaw_adds _).discard

/-! ## Opening a region -/

variable {R : MethodRecord}

/-- `try_begin` opens a region at the address current at the call, protecting nothing yet -/
theorem tryBegin_recorded {hasFinally : Bool} {u : Unit} (h : tryBegin hasFinally e = .ok u e')
    (hm : e.methods = m :: rest) (hR : m.Recorded R) :
    e'.config = e.config ∧ ∃ m', e'.methods = m' :: rest ∧
      m'.Recorded (R.step e.address (.tryBegin hasFinally) .none) := by
  unfold tryBegin at h
  obtain ⟨_, e₁, h₁, h⟩ := EStateM.bind_eq_ok.mp h
  obtain ⟨hc₁, m₁, hm₁, hw₁⟩ := writes_innermost flushPosition_writes h₁ hm
  have haddr : e.address = m₁.code.size := by rw [address_of_flush h₁, hm₁]; rfl
  obtain ⟨m₀, rest₀, m', hm₀, hact, rfl⟩ := onMethod_ok h
  rw [hm₁] at hm₀
  cases hm₀
  extract_lets -underBinder +onlyGivenNames push at hact
  -- the register of the finally body is bookkeeping; the region opens at the end of the code
  suffices hpush : ∀ sel m₂, m₁.SameJumps m₂ → push sel m₂ = .ok u m' →
      m'.Recorded (R.step e.address (.tryBegin hasFinally) .none) by
    refine ⟨hc₁, m', rfl, ?_⟩
    split at hact
    · obtain ⟨sel, m₂, h₂, hact⟩ := EStateM.bind_eq_ok.mp hact
      exact hpush sel m₂ ((Triple.map MethodM.allocTemp_keeps).ok_of trivial h₂).1 hact
    · obtain ⟨sel, m₂, h₂, hact⟩ := EStateM.bind_eq_ok.mp hact
      exact hpush sel m₂ ((MethodM.Keeps.pure _).ok h₂) hact
  intro sel m₂ hj₂ hact
  dsimp -zeta only [push] at hact
  obtain ⟨_, _, hget, hset⟩ := EStateM.bind_eq_ok.mp hact
  cases hget
  cases hset
  have hg : m.Grows m₂ := (Adds.of_writes hw₁).grows.trans hj₂.grows
  have hready : m₂.Ready [] := hj₂.ready ((Adds.of_writes hw₁).ready hR.ready)
  have hh : m₂.handlers = m.handlers := hj₂.handlers.trans hw₁.handlers
  refine ⟨hg.strict.trans hR.strict, ?_, ?_, fun hsize => ?_⟩
  · refine (hready.regions (T := []) (List.append_nil _).symm (fun b hb s hs => ?_)
      fun _ hs => by cases hs).1
    simp [List.mem_singleton.mp hb, HandlerBlock.pending] at hs
  · have hold : List.Forall₂ TryRecord.Describes R.regions m₂.handlers := hh ▸ hR.regions
    refine List.rel_append hold (.cons ⟨?_, (fun hs => by cases hs), rfl⟩ .nil)
    rw [haddr, hj₂.code]
  · obtain ⟨hshape, hentries, hreplies⟩ := hR.table (lt_of_le_of_lt hg.code.size hsize)
    refine ⟨hshape.push (by rw [hh]) hg.code hg.exceptions ⟨le_refl _, le_refl _, ?_, ?_,
      fun hs => by cases hs⟩ rfl hg.code.size, hg.exceptions ▸ hentries, hreplies⟩ <;>
    exact hready.1.code.boundary_size

/-! ## Ending the protected range -/

/-- `catch_clauses_begin` ends the innermost region's protected range at the address current at
the call and writes the jump over its handlers, which are to follow the range -/
theorem catchClausesBegin_recorded {u : Unit} (h : catchClausesBegin e = .ok u e')
    (hm : e.methods = m :: rest) (hR : m.Recorded R) :
    e'.config = e.config ∧ ∃ m', e'.methods = m' :: rest ∧
      m'.Recorded (R.step e.address .catchClausesBegin .none) := by
  unfold catchClausesBegin at h
  obtain ⟨r, e₀, h₀, h⟩ := EStateM.bind_eq_ok.mp h
  obtain ⟨he₀, hs, b, hh, rfl, -⟩ := openBlock_last hm hR.strict h₀
  rw [he₀] at h
  dsimp only at h
  obtain ⟨_, e₁, h₁, h⟩ := EStateM.bind_eq_ok.mp h
  obtain ⟨hc₁, m₁, hm₁, hw₁⟩ := writes_innermost flushPosition_writes h₁ hm
  have haddr : e.address = m₁.code.size := by rw [address_of_flush h₁, hm₁]; rfl
  obtain ⟨stop, e₂, h₂, h⟩ := EStateM.bind_eq_ok.mp h
  obtain ⟨rfl, m₂, rest₂, hm₂, rfl⟩ := position_ok h₂
  rw [hm₁] at hm₂
  cases hm₂
  obtain ⟨_, e₃, h₃, h⟩ := EStateM.bind_eq_ok.mp h
  obtain ⟨hc₃, _, hm₃, rfl⟩ := modifyHandler_last hm₁ (hw₁.handlers.trans hh) h₃
  obtain ⟨skip, e₄, h₄, h⟩ := EStateM.bind_eq_ok.mp h
  obtain ⟨hc₄, m₄, hm₄, hemit⟩ := reserve_innermost h₄ hm₃
  obtain ⟨hc₅, _, hm₅, rfl⟩ := modifyHandler_last hm₄ hemit.handlers h
  refine ⟨hc₅.trans (hc₄.trans (hc₃.trans hc₁)), _, hm₅, ?_⟩
  have hg₁ : m.code.Grows m₁.code := (Adds.of_writes hw₁).grows.code
  have hready₁ : m₁.Ready [] := (Adds.of_writes hw₁).ready hR.ready
  have hready₄ := hemit.ready (hready₁.regions (T := []) (hw₁.handlers.trans hh)
    (fun b' hb' s hs' => .inl (mem_pending_of_last (hw₁.handlers.trans hh) (by
      rw [List.mem_singleton.mp hb'] at hs'; exact hs'))) fun _ hs' => by cases hs')
  have hsize₄ := hemit.lt_size
  have he₄ : m₄.exceptions = m.exceptions := hemit.exceptions.trans hw₁.exceptions
  obtain ⟨ts, t, hRr, hts, ht⟩ := List.Forall₂.concat_right (hh ▸ hR.regions)
  have hstep : R.step e.address .catchClausesBegin .none =
      { R with regions := ts ++ [{ t with stop := e.address }] } := by
    simp only [MethodRecord.step, hRr, List.length_append, List.length_singleton,
      Nat.add_sub_cancel, List.modify_concat]
  rw [hstep]
  refine ⟨hemit.strict.trans (hw₁.strict.trans hR.strict), ?_, ?_, fun hsize => ?_⟩
  · refine (hready₄.regions (T := []) hemit.handlers (fun b' hb' s hs' => ?_)
      fun _ hs' => by cases hs').1
    rw [List.mem_singleton.mp hb'] at hs'
    simp only [HandlerBlock.pending, Option.toList_some, List.mem_append, List.mem_singleton] at hs'
    rcases hs' with ((rfl | hs') | hs') | hs'
    · exact .inr List.mem_cons_self
    all_goals exact .inl (mem_pending_of_last hemit.handlers (by simp [HandlerBlock.pending, hs']))
  · exact List.rel_append hts (.cons ⟨ht.start, fun _ => haddr.symm, ht.hasFinally⟩ .nil)
  · obtain ⟨hshape, hentries, hreplies⟩ :=
      hR.table (lt_of_le_of_lt (hg₁.trans hemit.adds.grows.code).size hsize)
    have hplaced := hshape.regions b (hh ▸ List.mem_append_right _ (List.mem_singleton_self b))
    refine ⟨hshape.setLast hh rfl (List.forall₂_same.mpr fun d _ => .refl d)
      (hg₁.trans hemit.adds.grows.code) (by rw [List.append_nil, he₄])
      ⟨?_, hsize₄.2.le.trans' hsize₄.1, hemit.adds.grows.code.boundary _ (hg₁.boundary _ hplaced.start),
        hemit.adds.grows.code.boundary _ hready₁.1.code.boundary_size,
        fun _ => hsize₄.1.trans_lt hsize₄.2⟩ rfl ?_ (fun _ h => by cases h) .nil
      (fun _ _ _ h => by cases h), he₄ ▸ hentries, hreplies⟩
    · exact hplaced.range.trans (hplaced.within.trans hg₁.size)
    · intro _ x hx
      rw [he₄] at hx
      exact .inl ((hshape.entries x hx).handler.trans_le
        ((hshape.entries x hx).within.trans hg₁.size))

/-! ## Catch clauses -/

/-- the handler before a new catch clause, if there is one, ends with a jump out of the handlers,
left pending in the region; the rest of the call runs from there -/
theorem endHandler_ok {α : Type} {K : Unit → EmitM α} {hs : List HandlerBlock} {b : HandlerBlock}
    {x : α} (hm : e.methods = m :: rest) (hh : m.handlers = hs ++ [b]) (hr : m.Ready [])
    (h : (if b.clauses > 0 then (reserve .jump >>= fun stop => modifyHandler hs.length
      (fun b => { b with handlerEnds := b.handlerEnds ++ [stop] }) >>= K) else K ()) e =
      .ok x e') :
    ∃ e₁ m₁ b₁, e₁.config = e.config ∧ e₁.methods = m₁ :: rest ∧ m₁.handlers = hs ++ [b₁] ∧
      b.SameRange b₁ ∧ m.code.Grows m₁.code ∧ m₁.exceptions = m.exceptions ∧
      m₁.strict = m.strict ∧ m₁.Ready [] ∧ K () e₁ = .ok x e' := by
  split at h
  · obtain ⟨stop, e₂, h₂, h⟩ := EStateM.bind_eq_ok.mp h
    obtain ⟨hc₂, m₂, hm₂, hemit⟩ := reserve_innermost h₂ hm
    obtain ⟨⟨⟩, e₃, h₃, h⟩ := EStateM.bind_eq_ok.mp h
    obtain ⟨hc₃, _, hm₃, rfl⟩ := modifyHandler_last hm₂ (hemit.handlers.trans hh) h₃
    refine ⟨e₃, _, _, hc₃.trans hc₂, hm₃, rfl, ⟨rfl, rfl, rfl, rfl⟩, hemit.adds.grows.code,
      hemit.exceptions, hemit.strict, ?_, h⟩
    refine (hemit.ready hr).regions (T := []) (hemit.handlers.trans hh) (fun b' hb' s hs => ?_)
      fun _ hs => by cases hs
    rw [List.mem_singleton.mp hb'] at hs
    simp only [HandlerBlock.pending, List.mem_append, List.mem_singleton] at hs
    rcases hs with ((hs | hs | rfl) | hs) | hs
    · exact .inl (mem_pending_of_last (hemit.handlers.trans hh) (by simp [HandlerBlock.pending, hs]))
    · exact .inl (mem_pending_of_last (hemit.handlers.trans hh) (by simp [HandlerBlock.pending, hs]))
    · exact .inr List.mem_cons_self
    · exact .inl (mem_pending_of_last (hemit.handlers.trans hh) (by simp [HandlerBlock.pending, hs]))
    · exact .inl (mem_pending_of_last (hemit.handlers.trans hh) (by simp [HandlerBlock.pending, hs]))
  · exact ⟨e, m, b, rfl, hm, hh, .refl b, .refl _, rfl, rfl, hr, h⟩

/-- `catch_clause` appends an entry that protects the innermost region's range, with its handler
at the address reached after the call's own writes, and returns the entry's index -/
theorem catchClause_recorded {excType varName : Option Name} {p : Nat}
    (h : catchClause excType varName e = .ok p e') (hm : e.methods = m :: rest)
    (hR : m.Recorded R) :
    e'.config = e.config ∧ ∃ m', e'.methods = m' :: rest ∧
      m'.Recorded (R.step e.address (.catchClause excType varName) (.number p)) := by
  unfold catchClause at h
  obtain ⟨r, e₀, h₀, h⟩ := EStateM.bind_eq_ok.mp h
  obtain ⟨he₀, hs, b, hh, rfl, hb⟩ := openBlock_last hm hR.strict h₀
  rw [he₀] at h
  dsimp -zeta only at h
  obtain ⟨b₀, e₀', h₀', h⟩ := EStateM.bind_eq_ok.mp h
  obtain ⟨he₀', hb₀⟩ := handler_last hm hh h₀'
  subst e₀' b₀
  obtain ⟨e₁, m₁, b₁, hc₁, hm₁, hh₁, hsame, hg₁, he₁, hs₁, hready₁, h⟩ :=
    endHandler_ok hm hh hR.ready h
  dsimp only at h
  obtain ⟨ti, e₂, h₂, h⟩ := EStateM.bind_eq_ok.mp h
  have hw₂ : e₁.Writes e₂ := by
    cases excType
    · cases h₂; exact refl_of _ _
    · exact onPool_writes _ _ _ h₂
  obtain ⟨vi, e₃, h₃, h⟩ := EStateM.bind_eq_ok.mp h
  have hw₃ : e₂.Writes e₃ := by
    cases varName
    · cases h₃; exact refl_of _ _
    · exact onPool_writes _ _ _ h₃
  obtain ⟨_, e₄, h₄, h⟩ := EStateM.bind_eq_ok.mp h
  obtain ⟨hc₄, m₄, hm₄, hw₄⟩ := (trans_of Emitter.Writes hw₂ (trans_of Emitter.Writes hw₃
    (flushPosition_writes _ _ _ h₄))).innermost hm₁
  obtain ⟨target, e₅, h₅, h⟩ := EStateM.bind_eq_ok.mp h
  obtain ⟨he₅, m₅, rest₅, hm₅, rfl⟩ := position_ok h₅
  subst e₅
  rw [hm₄] at hm₅
  cases hm₅
  obtain ⟨b₂, e₆, h₆, h⟩ := EStateM.bind_eq_ok.mp h
  obtain ⟨he₆, hb₂⟩ := handler_last hm₄ (hw₄.handlers.trans hh₁) h₆
  subst e₆ b₂
  obtain ⟨_, e₇, h₇, h⟩ := EStateM.bind_eq_ok.mp h
  obtain ⟨hc₇, m₇, hm₇, hm₇def⟩ := modifyHandler_last hm₄ (hw₄.handlers.trans hh₁) h₇
  set y : ExceptionEntry :=
    ⟨b₁.tryStart.toUInt32, b₁.tryEnd.toUInt32, m₄.code.size.toUInt32, ti, vi⟩ with hy
  obtain ⟨_, e₈, h₈, h⟩ := EStateM.bind_eq_ok.mp h
  obtain ⟨hc₈, m₈, hm₈, hm₈def⟩ := appendEntry_last hm₇ h₈
  obtain ⟨cur, e₉, h₉, h⟩ := EStateM.bind_eq_ok.mp h
  obtain ⟨he₉, rest₉, hm₉⟩ := current_ok h₉
  subst e₉
  rw [hm₈, List.cons.injEq] at hm₉
  obtain ⟨rfl, -⟩ := hm₉
  obtain ⟨_, e₁₀, h₁₀, h⟩ := EStateM.bind_eq_ok.mp h
  obtain ⟨hc₁₀, m₁₀, hm₁₀, hw₁₀⟩ := writes_innermost (enterHandler_writes _) h₁₀ hm₈
  cases h
  refine ⟨hc₁₀.trans (hc₈.trans (hc₇.trans (hc₄.trans hc₁))), m₁₀, hm₁₀, ?_⟩
  have hh₈ : m₈.handlers = hs ++ [{ b₁ with clauses := b₁.clauses + 1 }] := by rw [hm₈def, hm₇def]
  have he₈ : m₈.exceptions = m.exceptions ++ [y] := by rw [hm₈def, hm₇def, hw₄.exceptions, he₁]
  have hc₈ : m₈.code = m₄.code := by rw [hm₈def, hm₇def]
  have hs₈ : m₈.strict = m.strict := by rw [hm₈def, hm₇def, hw₄.strict, hs₁]
  have hsame₈ : b.SameRange { b₁ with clauses := b₁.clauses + 1 } :=
    ⟨hsame.state, hsame.tryStart, hsame.tryEnd, hsame.hasFinally⟩
  have hready₄ : m₄.Ready [] := (Adds.of_writes hw₄).ready hready₁
  have hready₇ : m₇.Ready [] := by
    rw [hm₇def]
    refine hready₄.regions (T := []) (hw₄.handlers.trans hh₁) (fun b' hb' s hs' => ?_)
      fun _ h => by cases h
    rw [List.mem_singleton.mp hb'] at hs'
    exact .inl (mem_pending_of_last (hw₄.handlers.trans hh₁) hs')
  have hready₈ : m₈.Ready [] := by
    rw [hm₈def]
    exact hready₇.repend rfl (fun s hs => .inl hs) fun _ h => by cases h
  obtain ⟨ts, t, hRr, hts, ht⟩ := List.Forall₂.concat_right (hh ▸ hR.regions)
  have hstep : R.step e.address (.catchClause excType varName) (.number (m₈.exceptions.length - 1)) =
      { R with entries := R.entries ++
        [⟨t.start, t.stop, false, .number (m₈.exceptions.length - 1)⟩] } := by
    simp [MethodRecord.step, hRr]
  rw [hstep]
  refine ⟨hw₁₀.strict.trans (hs₈.trans hR.strict), ((Adds.of_writes hw₁₀).ready hready₈).1, ?_,
    fun hsize => ?_⟩
  · show List.Forall₂ TryRecord.Describes R.regions m₁₀.handlers
    rw [hRr, hw₁₀.handlers, hh₈]
    exact List.rel_append hts (.cons (ht.same hsame₈) .nil)
  have hg₈ : m₄.code.Grows m₁₀.code := hc₈ ▸ (Adds.of_writes hw₁₀).grows.code
  have hg : m.code.Grows m₁₀.code := hg₁.trans ((Adds.of_writes hw₄).grows.code.trans hg₈)
  obtain ⟨hshape, hentries, hreplies⟩ := hR.table (lt_of_le_of_lt hg.size hsize)
  have hbmem : b ∈ m.handlers := hh ▸ List.mem_append_right _ (List.mem_singleton_self b)
  have hplaced := hshape.regions b hbmem
  have hcatch : b.state = .catches := List.mem_singleton.mp hb
  have hclear := hshape.clear b hbmem hcatch
  -- the entry's addresses are below `2 ^ 32`: they read back as the range and the handler's start
  have h₁₄ := (Adds.of_writes hw₄).grows.code.size
  have hys : y.start.toNat = b.tryStart ∧ y.stop.toNat = b.tryEnd ∧
      y.target.toNat = m₄.code.size := by
    have := hplaced.range
    have := hplaced.within
    have := hg₁.size
    have := hg₈.size
    refine ⟨?_, ?_, ?_⟩
    · show b₁.tryStart.toUInt32.toNat = b.tryStart
      rw [hsame.tryStart, toNat_toUInt32_of_lt (by omega)]
    · show b₁.tryEnd.toUInt32.toNat = b.tryEnd
      rw [hsame.tryEnd, toNat_toUInt32_of_lt (by omega)]
    · exact toNat_toUInt32_of_lt (by omega)
  refine ⟨hshape.setLast hh (hw₁₀.handlers.trans hh₈) (List.forall₂_same.mpr fun d _ => .refl d) hg
    (hw₁₀.exceptions.trans he₈) ((hplaced.same hsame₈).grow hg) hsame.tryStart ?_ ?_
    (List.pairwise_singleton _ _) ?_, ?_, ?_⟩
  · intro hcatch₈ x hx
    rw [hw₁₀.exceptions, he₈, List.mem_append, List.mem_singleton] at hx
    rcases hx with hx | rfl
    · exact (hshape.clear b hbmem).same hsame₈ hcatch₈ x hx
    · exact .inr (.inl ⟨hys.1.trans hsame.tryStart.symm, hys.2.1.trans hsame.tryEnd.symm⟩)
  · intro y' hy'
    rw [List.mem_singleton.mp hy']
    have hend := hplaced.catching hcatch
    have := hg₁.size
    refine ⟨⟨?_, ?_, ?_, ?_, ?_, ?_⟩, hys.1.ge⟩
    · rw [hys.1, hys.2.1]; exact hplaced.range
    · rw [hys.2.1, hys.2.2]; omega
    · rw [hys.2.2]; exact hg₈.size
    · rw [hys.1]; exact hg.boundary _ hplaced.start
    · rw [hys.2.1]; exact hg.boundary _ hplaced.stop
    · rw [hys.2.2]; exact hg₈.boundary _ hready₄.1.code.boundary_size
  · -- no earlier entry strictly contains the region's range: the region is clear of them
    intro x hx y' hy'
    rw [List.mem_singleton.mp hy', ExceptionEntry.strictlyWithin_iff, hys.1, hys.2.1]
    have := hclear x hx
    have := hplaced.range
    omega
  · rw [hw₁₀.exceptions, he₈]
    exact List.rel_append hentries
      (.cons ⟨hys.1.trans ht.start, hys.2.1.trans (ht.stop hcatch), fun h => by cases h⟩ .nil)
  · refine MethodRecord.replies_append hreplies fun _ => ?_
    rw [he₈, List.length_append, List.length_singleton, Nat.add_sub_cancel,
      hentries.length_eq]

/-! ## Closing the handlers -/

/-- `catch_clauses_end` lands the jumps over and out of the handlers, and closes the innermost
region unless a finally body follows -/
theorem catchClausesEnd_recorded {u : Unit} (h : catchClausesEnd e = .ok u e')
    (hm : e.methods = m :: rest) (hR : m.Recorded R) :
    e'.config = e.config ∧ ∃ m', e'.methods = m' :: rest ∧
      m'.Recorded (R.step e.address .catchClausesEnd .none) := by
  unfold catchClausesEnd at h
  obtain ⟨r, e₀, h₀, h⟩ := EStateM.bind_eq_ok.mp h
  obtain ⟨he₀, hs, b, hh, rfl, -⟩ := openBlock_last hm hR.strict h₀
  rw [he₀] at h
  dsimp only at h
  obtain ⟨b₀, e₁, h₁, h⟩ := EStateM.bind_eq_ok.mp h
  obtain ⟨he₁, hb₀⟩ := handler_last hm hh h₁
  subst e₁ b₀
  obtain ⟨_, e₂, h₂, h⟩ := EStateM.bind_eq_ok.mp h
  obtain ⟨hc₂, m₂, hm₂, hm₂def⟩ := modifyHandler_last hm hh h₂
  obtain ⟨m₃, rest₃, m', hm₃, hact, rfl⟩ := onMethod_ok h
  rw [hm₂] at hm₃
  cases hm₃
  refine ⟨hc₂, m', rfl, ?_⟩
  have hready₂ : m₂.Ready (b.skip.toList ++ b.handlerEnds) := by
    rw [hm₂def]
    refine hR.ready.regions hh (fun b' hb' s hs' => .inl (mem_pending_of_last hh ?_))
      fun s hs' => .inl (mem_pending_of_last hh ?_)
    · rw [List.mem_singleton.mp hb'] at hs'
      simp only [HandlerBlock.pending, List.mem_append] at hs' ⊢
      tauto
    · simp only [HandlerBlock.pending, List.mem_append] at hs' ⊢
      tauto
  obtain ⟨_, m₄, h₄, hact⟩ := EStateM.bind_eq_ok.mp hact
  obtain ⟨hg₄, hready₄⟩ := MethodM.forM_patchHere_ready (fun _ hs' => hs') m₂ () m₄ hready₂ h₄
  obtain ⟨_, m₅, h₅, h₆⟩ := EStateM.bind_eq_ok.mp hact
  have hj₅ := (MethodM.restore_keeps _).ok h₅
  have hready₅ := hj₅.ready hready₄
  have hg₅ : m.code.Grows m₅.code := by
    rw [hj₅.code, show m.code = m₂.code by rw [hm₂def]]
    exact hg₄.code
  have he₅ : m₅.exceptions = m.exceptions := by rw [hj₅.exceptions, hg₄.exceptions, hm₂def]
  have hs₅ : m₅.strict = m.strict := by rw [hj₅.strict, hg₄.strict, hm₂def]
  have hh₂ : m₂.handlers = hs ++ [{ b with skip := none, handlerEnds := [] }] := by rw [hm₂def]
  obtain ⟨hs₄, b₄, hh₄, hr₄, hb₄⟩ := List.Forall₂.concat_left (hh₂ ▸ hg₄.regions)
  have hh₅ : m₅.handlers = hs₄ ++ [b₄] := hj₅.handlers.trans hh₄
  have hr : List.Forall₂ HandlerBlock.SameRange hs hs₄ := hr₄.imp fun _ _ h => h.range
  have hsame : b.SameRange b₄ := ⟨hb₄.state, hb₄.tryStart, hb₄.tryEnd, hb₄.hasFinally⟩
  obtain ⟨ts, t, hRr, hts, ht⟩ := List.Forall₂.concat_right (hh ▸ hR.regions)
  cases hf : b.hasFinally
  · -- no finally body: the region closes
    rw [hf] at h₆
    cases h₆
    have hstep : R.step e.address .catchClausesEnd .none = { R with regions := ts } := by
      simp [MethodRecord.step, hRr, ← ht.hasFinally, hf]
    have hdrop : m₅.handlers.dropLast = hs₄ ++ [] := by
      rw [hh₅, List.dropLast_concat, List.append_nil]
    rw [hstep]
    refine ⟨hs₅.trans hR.strict, ?_, ?_, fun hsize => ?_⟩
    · show MethodState.Laid { m₅ with handlers := m₅.handlers.dropLast }
      rw [hdrop]
      exact (hready₅.regions (T := []) hh₅ (fun _ hb' => by cases hb') fun _ h => by cases h).1
    · show List.Forall₂ TryRecord.Describes ts m₅.handlers.dropLast
      rw [hdrop, List.append_nil]
      exact describes_same hts hr
    · obtain ⟨hshape, hentries, hreplies⟩ := hR.table (lt_of_le_of_lt hg₅.size hsize)
      refine ⟨hshape.transport (hh ▸ List.sublist_append_left hs [b]) ?_ hg₅ he₅,
        he₅ ▸ hentries, hreplies⟩
      show List.Forall₂ HandlerBlock.SameRange hs m₅.handlers.dropLast
      rw [hdrop, List.append_nil]
      exact hr
  · -- a finally body follows: the region stays, its handlers closed
    rw [hf] at h₆
    obtain rfl : m₅ = m' := by cases h₆; rfl
    have hstep : R.step e.address .catchClausesEnd .none = R := by
      simp [MethodRecord.step, hRr, ← ht.hasFinally, hf]
    have hr₅ : List.Forall₂ HandlerBlock.SameRange m.handlers m₅.handlers := by
      rw [hh, hh₅]
      exact List.rel_append hr (.cons hsame .nil)
    rw [hstep]
    refine ⟨hs₅.trans hR.strict, hready₅.1, describes_same hR.regions hr₅, fun hsize => ?_⟩
    obtain ⟨hshape, hentries, hreplies⟩ := hR.table (lt_of_le_of_lt hg₅.size hsize)
    exact ⟨hshape.transport (List.Sublist.refl _) hr₅ hg₅ he₅, he₅ ▸ hentries, hreplies⟩

/-! ## Closing a region after its finally body -/

/-- `finally_clause_end` returns to the path that entered the finally body, lands the jump past
the rethrowing handler and closes the innermost region -/
theorem finallyClauseEnd_recorded {u : Unit} (h : finallyClauseEnd e = .ok u e')
    (hm : e.methods = m :: rest) (hR : m.Recorded R) :
    e'.config = e.config ∧ ∃ m', e'.methods = m' :: rest ∧
      m'.Recorded (R.step e.address .finallyClauseEnd .none) := by
  unfold finallyClauseEnd at h
  obtain ⟨r, e₀, h₀, h⟩ := EStateM.bind_eq_ok.mp h
  obtain ⟨he₀, hs, b, hh, rfl, -⟩ := openBlock_last hm hR.strict h₀
  rw [he₀] at h
  dsimp -zeta only at h
  obtain ⟨b₀, e₁, h₁, h⟩ := EStateM.bind_eq_ok.mp h
  obtain ⟨he₁, hb₀⟩ := handler_last hm hh h₁
  subst e₁ b₀
  cases hsel : b.selector with
  | none => rw [hsel] at h; cases h
  | some selector =>
  rw [hsel] at h
  dsimp -zeta only at h
  extract_lets -underBinder +onlyGivenNames close at h
  suffices hclose : ∀ e₂ (u₂ : Unit), Emitter.Adds e e₂ → close u₂ e₂ = .ok u e' →
      e'.config = e.config ∧ ∃ m', e'.methods = m' :: rest ∧
        m'.Recorded (R.step e.address .finallyClauseEnd .none) by
    rcases hres : b.resumes with _ | ⟨only, _ | ⟨second, more⟩⟩ <;> rw [hres] at h <;>
      dsimp -zeta only at h
    · obtain ⟨_, _, h₂, -⟩ := EStateM.bind_eq_ok.mp h
      cases h₂
    · obtain ⟨_, e₂, h₂, h⟩ := EStateM.bind_eq_ok.mp h
      obtain ⟨u₃, e₃, h₃, h⟩ := EStateM.bind_eq_ok.mp h
      exact hclose e₃ u₃ (trans_of Emitter.Adds (writes_adds (kill_writes _) _ _ _ h₂)
        (branchBack_adds _ _ _ _ _ h₃)) h
    · obtain ⟨_, e₂, h₂, h⟩ := EStateM.bind_eq_ok.mp h
      obtain ⟨_, e₃, h₃, h⟩ := EStateM.bind_eq_ok.mp h
      obtain ⟨u₄, e₄, h₄, h⟩ := EStateM.bind_eq_ok.mp h
      exact hclose e₄ u₄ (trans_of Emitter.Adds (writes_adds (getLocal_writes _) _ _ _ h₂)
        (trans_of Emitter.Adds (writes_adds (kill_writes _) _ _ _ h₃)
          (dispatch_adds _ _ _ _ _ h₄))) h
  intro e₂ u₂ hadd h
  dsimp -zeta only [close] at h
  have hm₂ := hadd.methods
  rw [hm] at hm₂
  obtain ⟨m₂, hm₂, hadd₂⟩ := hm₂.of_cons_left
  obtain ⟨m₂', rest₂, m', hm₂', hact, rfl⟩ := onMethod_ok h
  rw [hm₂] at hm₂'
  cases hm₂'
  refine ⟨hadd.config, m', rfl, ?_⟩
  obtain ⟨hs₂, b₂, hh₂, hr₂, -⟩ := List.Forall₂.concat_left (hh ▸ hadd₂.regions)
  obtain ⟨_, _, hget, hact⟩ := EStateM.bind_eq_ok.mp hact
  cases hget
  rw [hh₂, List.getLast?_concat] at hact
  dsimp -zeta only at hact
  obtain ⟨_, m₃, hdrop, hact⟩ := EStateM.bind_eq_ok.mp hact
  obtain rfl : m₃ = { m₂ with handlers := m₂.handlers.dropLast } := by cases hdrop; rfl
  have hready₂ : m₂.Ready b.done.toList := hadd₂.ready ((hR.ready.add fun s hs' =>
    mem_pending_of_last hh (by simp only [HandlerBlock.pending, List.mem_append]; tauto)).sub
      fun _ hs' => List.mem_append_left _ hs')
  have hready₃ : MethodState.Ready b.done.toList { m₂ with handlers := m₂.handlers.dropLast } := by
    rw [hh₂, List.dropLast_concat, ← List.append_nil hs₂]
    exact hready₂.regions hh₂ (fun _ hb' => by cases hb') fun s hs' => .inr hs'
  have hleave : ∀ m₄ (S : List Nat),
      ({ m₂ with handlers := m₂.handlers.dropLast } : MethodState).Grows m₄ → m₄.Ready S →
      (MethodM.freeTemp selector >>= fun _ => MethodM.restore b₂.entry) m₄ = .ok () m' →
      m.code.Grows m'.code ∧ m'.exceptions = m.exceptions ∧ m'.strict = m.strict ∧
        m'.Ready [] ∧ List.Forall₂ HandlerBlock.SameRegion hs₂ m'.handlers := by
    intro m₄ S hg₄ hready₄ h
    obtain ⟨_, m₅, h₅, h⟩ := EStateM.bind_eq_ok.mp h
    have hj : m₄.SameJumps m' := trans_of MethodState.SameJumps
      ((MethodM.freeTemp_keeps _).ok h₅) ((MethodM.restore_keeps _).ok h)
    have hg : m₂.code.Grows m'.code := by rw [hj.code]; exact hg₄.code
    have hr₄ : List.Forall₂ HandlerBlock.SameRegion m₂.handlers.dropLast m₄.handlers := hg₄.regions
    rw [hh₂, List.dropLast_concat, ← hj.handlers] at hr₄
    exact ⟨hadd₂.grows.code.trans hg, hj.exceptions.trans (hg₄.exceptions.trans hadd₂.exceptions),
      hj.strict.trans (hg₄.strict.trans hadd₂.strict), (hj.ready hready₄).sub (fun _ h => by cases h),
      hr₄⟩
  obtain ⟨hg, he, hs', hready, hr⟩ : m.code.Grows m'.code ∧ m'.exceptions = m.exceptions ∧
      m'.strict = m.strict ∧ m'.Ready [] ∧ List.Forall₂ HandlerBlock.SameRegion hs₂ m'.handlers := by
    cases hdone : b.done with
    | none =>
      rw [hdone] at hact
      dsimp only at hact
      exact hleave _ _ (.refl _) hready₃ hact
    | some done =>
      rw [hdone] at hact hready₃
      dsimp only at hact
      obtain ⟨_, m₄, h₄, hact⟩ := EStateM.bind_eq_ok.mp hact
      obtain ⟨hg₄, hready₄⟩ := MethodM.patchHere_ready List.mem_cons_self _ _ _ hready₃ h₄
      exact hleave m₄ _ hg₄ hready₄ hact
  obtain ⟨ts, t, hRr, hts, -⟩ := List.Forall₂.concat_right (hh ▸ hR.regions)
  have hr' : List.Forall₂ HandlerBlock.SameRange hs m'.handlers :=
    HandlerBlock.SameRange.forall₂_trans (hr₂.imp fun _ _ h => h.range) (hr.imp fun _ _ h => h.range)
  have hstep : R.step e.address .finallyClauseEnd .none = { R with regions := ts } := by
    simp [MethodRecord.step, hRr]
  rw [hstep]
  refine ⟨hs'.trans hR.strict, hready.1, describes_same hts hr', fun hsize => ?_⟩
  obtain ⟨hshape, hentries, hreplies⟩ := hR.table (lt_of_le_of_lt hg.size hsize)
  exact ⟨hshape.transport (hh ▸ List.sublist_append_left hs [b]) hr' hg he, he ▸ hentries, hreplies⟩

/-! ## Entering the finally body -/

/-- `finally_clause_begin` ends the protected range of a region without catch clauses at the
address current at the call, and appends the catch-all entry of the finally body: it protects the
region from its start to that address, and its handler follows the jump that takes the normal path
past it -/
theorem finallyClauseBegin_recorded {u : Unit} (h : finallyClauseBegin e = .ok u e')
    (hm : e.methods = m :: rest) (hR : m.Recorded R) :
    e'.config = e.config ∧ ∃ m', e'.methods = m' :: rest ∧
      m'.Recorded (R.step e.address .finallyClauseBegin .none) := by
  unfold finallyClauseBegin at h
  obtain ⟨r, e₀, h₀, h⟩ := EStateM.bind_eq_ok.mp h
  obtain ⟨he₀, hs, b, hh, rfl, hb⟩ := openBlock_last hm hR.strict h₀
  rw [he₀] at h
  dsimp -zeta only at h
  obtain ⟨_, e₁, h₁, h⟩ := EStateM.bind_eq_ok.mp h
  obtain ⟨hc₁, m₁, hm₁, hw₁⟩ := writes_innermost flushPosition_writes h₁ hm
  have haddr : e.address = m₁.code.size := by rw [address_of_flush h₁, hm₁]; rfl
  obtain ⟨rangeEnd, e₂, h₂, h⟩ := EStateM.bind_eq_ok.mp h
  obtain ⟨he₂, m₂, rest₂, hm₂, rfl⟩ := position_ok h₂
  subst e₂
  rw [hm₁] at hm₂
  cases hm₂
  have hh₁ : m₁.handlers = hs ++ [b] := hw₁.handlers.trans hh
  obtain ⟨b₀, e₃, h₃, h⟩ := EStateM.bind_eq_ok.mp h
  obtain ⟨he₃, hb₀⟩ := handler_last hm₁ hh₁ h₃
  subst e₃ b₀
  extract_lets -underBinder +onlyGivenNames enter at h
  by_cases hf : b.hasFinally = true
  swap
  · rw [if_pos (by simpa using hf)] at h
    obtain ⟨_, _, hv, _⟩ := EStateM.bind_eq_ok.mp h
    exact (violation_ok hm₁ (hw₁.strict.trans hR.strict) hv).elim
  rw [if_neg (by simp [hf])] at h
  -- a region without catch clauses ends its range here; the body is entered from either state
  suffices henter : ∀ e₄ b₁, e₄.config = e.config →
      e₄.methods = { m₁ with handlers := hs ++ [b₁] } :: rest →
      b₁ = { b with tryEnd := b₁.tryEnd } → (b₁.tryEnd = b.tryEnd ∨ b₁.tryEnd = m₁.code.size) →
      enter () e₄ = .ok u e' → e'.config = e.config ∧ ∃ m', e'.methods = m' :: rest ∧
        m'.Recorded (R.step e.address .finallyClauseBegin .none) by
    by_cases hp : b.state = .protectedBody
    · rw [if_pos hp] at h
      obtain ⟨⟨⟩, e₄, h₄, h⟩ := EStateM.bind_eq_ok.mp h
      obtain ⟨hc₄, _, hm₄, rfl⟩ := modifyHandler_last hm₁ hh₁ h₄
      exact henter e₄ _ (hc₄.trans hc₁) hm₄ rfl (.inr rfl) h
    · rw [if_neg hp] at h
      refine henter e₁ b hc₁ ?_ rfl (.inl rfl) h
      rw [hm₁, ← hh₁]
  intro e₄ b₁ hc₄ hm₄ hb₁ hend h
  dsimp -zeta only [enter] at h
  obtain ⟨_, e₅, h₅, h⟩ := EStateM.bind_eq_ok.mp h
  obtain ⟨hc₅, m₅, hm₅, hadd₅⟩ := adds_innermost (callSite_adds _) h₅ hm₄
  obtain ⟨done, e₆, h₆, h⟩ := EStateM.bind_eq_ok.mp h
  obtain ⟨hc₆, m₆, hm₆, hemit⟩ := reserve_innermost h₆ hm₅
  obtain ⟨target, e₇, h₇, h⟩ := EStateM.bind_eq_ok.mp h
  obtain ⟨he₇, m₇, rest₇, hm₇, rfl⟩ := position_ok h₇
  subst e₇
  rw [hm₆] at hm₇
  cases hm₇
  set y : ExceptionEntry := ⟨b.tryStart.toUInt32, m₁.code.size.toUInt32, m₆.code.size.toUInt32, 0, 0⟩
    with hy
  obtain ⟨_, e₈, h₈, h⟩ := EStateM.bind_eq_ok.mp h
  obtain ⟨hc₈, m₈, hm₈, hm₈def⟩ := appendEntry_last hm₆ h₈
  obtain ⟨_, e₉, h₉, h⟩ := EStateM.bind_eq_ok.mp h
  obtain ⟨exception, e₁₀, h₁₀, h⟩ := EStateM.bind_eq_ok.mp h
  obtain ⟨_, e₁₁, h₁₁, h⟩ := EStateM.bind_eq_ok.mp h
  obtain ⟨_, e₁₂, h₁₂, h⟩ := EStateM.bind_eq_ok.mp h
  obtain ⟨_, e₁₃, h₁₃, h⟩ := EStateM.bind_eq_ok.mp h
  obtain ⟨_, e₁₄, h₁₄, h⟩ := EStateM.bind_eq_ok.mp h
  obtain ⟨_, e₁₅, h₁₅, h⟩ := EStateM.bind_eq_ok.mp h
  have hadd : Emitter.Adds e₈ e₁₅ :=
    trans_of Emitter.Adds (writes_adds (enterHandler_writes _) _ _ _ h₉)
      (trans_of Emitter.Adds (writes_adds allocTemp_writes _ _ _ h₁₀)
        (trans_of Emitter.Adds (writes_adds (setLocal_writes _) _ _ _ h₁₁)
          (trans_of Emitter.Adds (callSite_adds _ _ _ _ h₁₂)
            (trans_of Emitter.Adds (writes_adds (getLocal_writes _) _ _ _ h₁₃)
              (trans_of Emitter.Adds (writes_adds (freeTemp_writes _) _ _ _ h₁₄)
                (writes_adds throwValue_writes _ _ _ h₁₅))))))
  obtain ⟨hc₁₅, m₁₅, hm₁₅, hadd₁₅⟩ := hadd.innermost hm₈
  have hr₁₅ : List.Forall₂ HandlerBlock.SameRegion (hs ++ [b₁]) m₁₅.handlers := by
    have h₈ : m₈.handlers = m₅.handlers := by rw [hm₈def, hemit.handlers]
    exact HandlerBlock.SameRegion.forall₂_trans hadd₅.regions (h₈ ▸ hadd₁₅.regions)
  obtain ⟨hs₂, b₂, hh₁₅, hr₂, hb₂⟩ := List.Forall₂.concat_left hr₁₅
  have hlen : hs₂.length = hs.length := hr₂.length_eq.symm
  obtain ⟨b₃, e₁₆, h₁₆, h⟩ := EStateM.bind_eq_ok.mp h
  rw [← hlen] at h₁₆ h
  obtain ⟨he₁₆, hb₃⟩ := handler_last hm₁₅ hh₁₅ h₁₆
  subst e₁₆ b₃
  obtain ⟨_, e₁₇, h₁₇, h⟩ := EStateM.bind_eq_ok.mp h
  obtain ⟨hc₁₇, m₁₇, hm₁₇, hm₁₇def⟩ := modifyHandler_last hm₁₅ hh₁₅ h₁₇
  obtain ⟨_, e₁₈, h₁₈, h⟩ := EStateM.bind_eq_ok.mp h
  obtain ⟨m₁₇', rest₁₇, m₁₈, hm₁₇', hact, rfl⟩ := onMethod_ok h₁₈
  rw [hm₁₇] at hm₁₇'
  cases hm₁₇'
  obtain ⟨_, m₁₉, h₁₉, hact⟩ := EStateM.bind_eq_ok.mp hact
  obtain ⟨_, m₂₀, h₂₀, h₂₁⟩ := EStateM.bind_eq_ok.mp hact
  have hj : m₁₉.SameJumps m₁₈ := trans_of MethodState.SameJumps
    ((MethodM.restore_keeps _).ok h₂₀) ((MethodM.adjustStack_keeps _).ok h₂₁)
  have hw : Emitter.Writes { e₁₇ with methods := m₁₈ :: rest } e' := by
    cases hsel : b₂.selector with
    | none =>
      rw [hsel] at h
      cases h
      exact refl_of _ _
    | some selector =>
      rw [hsel] at h
      exact setLocal_writes _ _ _ _ h
  obtain ⟨hc', m', hm', hw'⟩ := hw.innermost rfl
  refine ⟨hc'.trans (hc₁₇.trans (hc₁₅.trans (hc₈.trans (hc₆.trans (hc₅.trans hc₄))))), m', hm', ?_⟩
  have hready₁ : m₁.Ready [] := (Adds.of_writes hw₁).ready hR.ready
  have hready₆ : m₆.Ready [done] := by
    refine hemit.ready (hadd₅.ready (hready₁.regions (T := []) hh₁ (fun b' hb' s hs' => ?_)
      fun _ h => by cases h))
    rw [List.mem_singleton.mp hb', hb₁] at hs'
    exact .inl (mem_pending_of_last hh₁ hs')
  have hready₁₅ : m₁₅.Ready [done] := hadd₁₅.ready (by
    rw [hm₈def]
    exact hready₆.repend rfl (fun s hs' => .inl hs') fun s hs' => .inr hs')
  have hready₁₇ : m₁₇.Ready b₂.callSites := by
    rw [hm₁₇def]
    refine hready₁₅.regions hh₁₅ (fun b' hb' s hs' => ?_)
      fun s hs' => .inl (mem_pending_of_last hh₁₅ (by simp [HandlerBlock.pending, hs']))
    rw [List.mem_singleton.mp hb'] at hs'
    simp only [HandlerBlock.pending, Option.toList_some, List.append_nil, List.mem_append,
      List.mem_singleton] at hs'
    rcases hs' with (hs' | hs') | rfl
    · exact .inl (mem_pending_of_last hh₁₅ (by simp [HandlerBlock.pending, hs']))
    · exact .inl (mem_pending_of_last hh₁₅ (by simp [HandlerBlock.pending, hs']))
    · exact .inr List.mem_cons_self
  obtain ⟨hg₁₉, hready₁₉⟩ := MethodM.forM_patchHere_ready (fun _ hs' => hs') m₁₇ () m₁₉ hready₁₇ h₁₉
  have hready' : m'.Ready [] := (Adds.of_writes hw').ready ((hj.ready hready₁₉).sub fun _ h => by cases h)
  -- the steps between the four that change the record grow the method
  have hg₁ : m.Grows m₁ := (Adds.of_writes hw₁).grows
  have hg₆ : MethodState.Grows { m₁ with handlers := hs ++ [b₁] } m₆ := hadd₅.grows.trans hemit.adds.grows
  have hg' : m₁₇.Grows m' := hg₁₉.trans (hj.grows.trans (Adds.of_writes hw').grows)
  have hg₁₅ : m₆.code.Grows m₁₅.code := by
    have := hadd₁₅.grows.code
    rwa [hm₈def] at this
  have hg₁₇ : m₁₅.code.Grows m'.code := by
    have := hg'.code
    rwa [hm₁₇def] at this
  have hcode : m.code.Grows m'.code := hg₁.code.trans (hg₆.code.trans (hg₁₅.trans hg₁₇))
  have hr' := hg'.regions
  rw [hm₁₇def] at hr'
  obtain ⟨hs₃, b₄, hh', hr₃, hb₄⟩ := List.Forall₂.concat_left hr'
  have hstart : b₄.tryStart = b.tryStart := by rw [hb₄.tryStart, hb₂.tryStart, hb₁]
  have hstop : b₄.tryEnd = b₁.tryEnd := hb₄.tryEnd.trans hb₂.tryEnd
  have he' : m'.exceptions = m.exceptions ++ [y] := by
    have h₁₇ : m₁₇.exceptions = m₁₅.exceptions := by rw [hm₁₇def]
    have h₈ : m₈.exceptions = m₆.exceptions ++ [y] := by rw [hm₈def]
    rw [hg'.exceptions, h₁₇, hadd₁₅.exceptions, h₈, hg₆.exceptions, hg₁.exceptions]
  have hstrict : m'.strict = m.strict := by
    have h₁₇ : m₁₇.strict = m₁₅.strict := by rw [hm₁₇def]
    have h₈ : m₈.strict = m₆.strict := by rw [hm₈def]
    rw [hg'.strict, h₁₇, hadd₁₅.strict, h₈, hg₆.strict, hg₁.strict]
  obtain ⟨ts, t, hRr, hts, ht⟩ := List.Forall₂.concat_right (hh ▸ hR.regions)
  have hstep : R.step e.address .finallyClauseBegin .none =
      { R with entries := R.entries ++ [⟨t.start, e.address, true, .none⟩] } := by
    simp [MethodRecord.step, hRr]
  rw [hstep]
  have hrange : List.Forall₂ HandlerBlock.SameRange hs hs₃ :=
    HandlerBlock.SameRange.forall₂_trans (hr₂.imp fun _ _ h => h.range) (hr₃.imp fun _ _ h => h.range)
  refine ⟨hstrict.trans hR.strict, hready'.1, ?_, fun hsize => ?_⟩
  · have hfin : b₄.hasFinally = t.hasFinally := by
      rw [hb₄.hasFinally, hb₂.hasFinally, hb₁]
      exact ht.hasFinally
    rw [hRr, hh']
    refine List.rel_append (describes_same hts hrange)
      (.cons ⟨hstart.trans ht.start, fun hc => ?_, hfin⟩ .nil)
    rw [hb₄.state] at hc
    cases hc
  have hs₁ : m.code.size ≤ m₁.code.size := hg₁.code.size
  have hs₅ : m₁.code.size ≤ m₅.code.size := hadd₅.grows.code.size
  have hsite := hemit.lt_size
  have hg₆' : m₆.code.Grows m'.code := hg₁₅.trans hg₁₇
  obtain ⟨hshape, hentries, hreplies⟩ := hR.table (lt_of_le_of_lt hcode.size hsize)
  have hplaced := hshape.regions b (hh ▸ List.mem_append_right _ (List.mem_singleton_self b))
  have hys : y.start.toNat = b.tryStart ∧ y.stop.toNat = m₁.code.size ∧
      y.target.toNat = m₆.code.size := by
    have := hplaced.range
    have := hplaced.within
    have := hg₆'.size
    exact ⟨toNat_toUInt32_of_lt (by omega), toNat_toUInt32_of_lt (by omega),
      toNat_toUInt32_of_lt (by omega)⟩
  -- the region's range ends where it ended, or here when it had no catch clauses
  have hrangeEnd : m'.code.Boundary b₁.tryEnd ∧ b.tryStart ≤ b₁.tryEnd ∧
      b₁.tryEnd ≤ m₁.code.size := by
    rcases hend with hend | hend <;> rw [hend]
    · exact ⟨hcode.boundary _ hplaced.stop, hplaced.range, hplaced.within.trans hs₁⟩
    · exact ⟨(hg₆.code.trans hg₆').boundary _ hready₁.1.code.boundary_size,
        hplaced.range.trans (hplaced.within.trans hs₁), le_refl _⟩
  refine ⟨hshape.setLast hh hh' hrange hcode he' ⟨?_, ?_, ?_, ?_, fun hc => ?_⟩ hstart
    (fun hc => ?_) (fun y' hy' => ?_) (List.pairwise_singleton _ _) (fun x hx y' hy' => ?_), ?_, ?_⟩
  · rw [hstart, hstop]
    exact hrangeEnd.2.1
  · rw [hstop]
    have := hg₆'.size
    omega
  · rw [hstart]
    exact hcode.boundary _ hplaced.start
  · rw [hstop]
    exact hrangeEnd.1
  · rw [hb₄.state] at hc
    cases hc
  · rw [hb₄.state] at hc
    cases hc
  · rw [List.mem_singleton.mp hy']
    have := hplaced.range
    have := hplaced.within
    have := hg₆'.size
    refine ⟨⟨?_, ?_, ?_, ?_, ?_, ?_⟩, hys.1.ge⟩
    · rw [hys.1, hys.2.1]; omega
    · rw [hys.2.1, hys.2.2]; omega
    · rw [hys.2.2]; exact hg₆'.size
    · rw [hys.1]; exact hcode.boundary _ hplaced.start
    · rw [hys.2.1]; exact (hg₆.code.trans hg₆').boundary _ hready₁.1.code.boundary_size
    · rw [hys.2.2]; exact hg₆'.boundary _ hready₆.1.code.boundary_size
  · -- every earlier entry's handler, hence its range, ends before this range does
    rw [List.mem_singleton.mp hy', ExceptionEntry.strictlyWithin_iff, hys.1, hys.2.1]
    have := (hshape.entries x hx).handler
    have := (hshape.entries x hx).within
    omega
  · rw [he']
    exact List.rel_append hentries
      (.cons ⟨hys.1.trans ht.start, hys.2.1.trans haddr.symm, fun _ => ⟨rfl, rfl⟩⟩ .nil)
  · exact MethodRecord.replies_append hreplies fun h => by cases h

end Emitter

end AbcKit.Emit
