import AbcKit.Proofs.Leaving
import AbcKit.Proofs.Tracking
/-!
Call sites into finally bodies, followed without the depth counters.

A call site into the finally body of a region pushes the region's count of resumes, jumps into
the body, and ends with a label four bytes after the jump, its resume point (`CallSiteAt`). The
walk out of regions that `break`, `continue`, `return` and `call_finallies` make enters each region
whose finally body has not started through one call site (`HandlerBlock.EnteredAt`): the region's
call sites and resume points grow by those of the new sites, in order, and nothing else about it
changes. `Emitter.Enters` says that of every region of the innermost method, whose code only grows
by whole instructions; `Emitter.perform_enters` collects it for every call that shapes no flow.

Unlike `callSite_wrote`, nothing here follows the depth counters, so no bound on them is needed:
the position records keep out of the call site because a write leaves none pending
(`Emitter.flushed_of_emit`).
-/
namespace AbcKit

/-- `c'` is `c` with whole instructions written after it -/
def Buffer.Appends (c c' : Buffer) : Prop :=
  ∃ W : List Instruction, (∀ i ∈ W, i.Fits) ∧ c' = c.append (W.flatMap Instruction.bytes)

namespace Buffer.Appends

variable {c c' c'' : Buffer}

theorem refl (c : Buffer) : c.Appends c := ⟨[], by simp, by simp [Buffer.append]⟩

theorem trans (h : c.Appends c') (h' : c'.Appends c'') : c.Appends c'' := by
  obtain ⟨W, hW, rfl⟩ := h
  obtain ⟨W', hW', rfl⟩ := h'
  refine ⟨W ++ W', fun i hi => ?_, by simp⟩
  rcases List.mem_append.mp hi with hi | hi
  · exact hW i hi
  · exact hW' i hi

theorem size (h : c.Appends c') : c.size ≤ c'.size := by
  obtain ⟨W, -, rfl⟩ := h
  simp

theorem keeps (h : c.Appends c') (hl : c.Laid) : c.Keeps c' [] := by
  obtain ⟨W, hW, rfl⟩ := h
  obtain ⟨insts, hi⟩ := hl
  exact keeps_append hi hW

end Buffer.Appends

namespace Emit

/-! ## No record pending after a write -/

namespace Emitter

variable {e e' : Emitter} {m : MethodState} {rest : List MethodState} {i : Instruction}
  {site : Nat}

theorem flushPosition_flushed {u : Unit} (h : flushPosition e = .ok u e') : e'.Flushed := by
  unfold flushPosition at h
  obtain ⟨e₀, e₁, h₀, h⟩ := EStateM.bind_eq_ok.mp h
  cases h₀
  split at h
  · next hquiet =>
    cases h
    simp only [Bool.or_eq_true, Bool.not_eq_true', List.isEmpty_iff] at hquiet
    rcases hquiet with (h | h) | h
    · exact .inl h
    · exact .inr (.inl h)
    · exact .inr (.inr (.inl h))
  split at h
  · next hnone =>
    cases h
    simp only [Bool.and_eq_true, Option.isNone_iff_eq_none, beq_iff_eq] at hnone
    exact .inr (.inr (.inr hnone))
  -- whatever records are written, the flush ends by unmarking the line
  have hline : ∀ e₂ : Emitter,
      (do
        let d ← get
        discard (emitRaw (.debugLine d.debug.line))
        modify fun e : Emitter => { e with
          debug := { e.debug with fileDirty := false, lineDirty := false, functionDirty := false } } :
        EmitM Unit) e₂ = .ok u e' → e'.Flushed := by
    intro e₂ h
    obtain ⟨_, _, ⟨⟩, h⟩ := EStateM.bind_eq_ok.mp h
    obtain ⟨_, _, -, h⟩ := EStateM.bind_eq_ok.mp h
    cases h
    exact .inr (.inl rfl)
  dsimp only at h
  split at h
  · cases hfile : e.debug.file with
    | none =>
      rw [hfile] at h
      exact hline _ h
    | some file =>
      rw [hfile] at h
      obtain ⟨_, _, -, h⟩ := EStateM.bind_eq_ok.mp h
      obtain ⟨_, _, -, h⟩ := EStateM.bind_eq_ok.mp h
      exact hline _ h
  · exact hline _ h

theorem onMethod_flushed {α : Type} {act : Pool → MethodM α} {a : α} (hf : e.Flushed)
    (h : onMethod act e = .ok a e') : e'.Flushed := by
  obtain ⟨m, rest, m', hm, -, rfl⟩ := onMethod_ok h
  have hm' : ({ e with methods := m' :: rest } : Emitter).methods = m' :: rest := rfl
  exact (flushed_of_same hm hm' rfl rfl).mpr hf

theorem flushed_of_emit (h : emit i e = .ok site e') : e'.Flushed := by
  obtain ⟨_, e₁, h₁, h₂⟩ := EStateM.bind_eq_ok.mp h
  exact onMethod_flushed (flushPosition_flushed h₁) h₂

/-- with no record pending, an instruction is written at the end of the code and nothing else -/
theorem emit_of_flushed (hf : e.Flushed) (hm : e.methods = m :: rest) (h : emit i e = .ok site e') :
    ∃ m', e.Wrote m [] [i] e' m' ∧ site = m.code.size ∧ m'.handlers = m.handlers ∧
      m'.flow = m.flow ∧ m'.strict = m.strict ∧ m'.exceptions = m.exceptions := by
  obtain ⟨_, e₁, h₁, h₂⟩ := EStateM.bind_eq_ok.mp h
  rw [flushPosition_of_flushed hf] at h₁
  cases h₁
  obtain ⟨m', δ, hw, hsite, -, rfl⟩ := emitRaw_wrote hm hf h₂
  exact ⟨_, hw, hsite, rfl, rfl, rfl, rfl⟩

theorem emits_of_flushed (hf : e.Flushed) (hm : e.methods = m :: rest) (h : emit i e = .ok site e') :
    ∃ m', e'.methods = m' :: rest ∧ m.Emits i m.code.size m' := by
  obtain ⟨-, m₀, rest₀, m', hm₀, hm', hemit⟩ := emit_emits h
  rw [hm] at hm₀
  cases hm₀
  obtain ⟨_, -, hsite, -⟩ := emit_of_flushed hf hm h
  exact ⟨m', hm', hsite ▸ hemit⟩

theorem simple_flushed {op : SimpleOp} {u : Unit} (h : simple op e = .ok u e') : e'.Flushed := by
  unfold simple at h
  obtain ⟨_, h, -⟩ := EStateM.map_eq_ok h
  exact flushed_of_emit h

end Emitter

/-! ## Call sites in the code -/

/-- The call site whose resume point is `r` pushes `k`: in the laid-out code `c` a label starts at
`r`, an unconditional jump at `r - 4` is the last jump of the four bytes before it, and right before
the jump is the instruction that the pool `q` spells for `k`, with nothing left to intern. -/
structure CallSiteAt (q : Pool) (c : Buffer) (k r : Nat) : Prop where
  laid : c.Laid
  four : 4 ≤ r
  label : (r, .simple SimpleOp.label) ∈ c.layout
  jump : ∃ d, (⟨r - 4, r⟩ : Emit.Span).lastJump c.layout = some (r - 4, .branch BranchOp.jump d)
  push : ∃ p i, (p, i) ∈ c.layout ∧ p + i.bytes.length = r - 4 ∧
    intInstruction (Int32.ofNat k) q = (i, q)

namespace CallSiteAt

variable {q q' : Pool} {c c' : Buffer} {k r : Nat}

theorem lt_size (h : CallSiteAt q c k r) : r < c.size := h.laid.lt_size h.label

theorem jumpAt (h : CallSiteAt q c k r) : c.JumpAt ⟨r - 4, r⟩ (r - 4) :=
  let ⟨d, hd⟩ := h.jump
  ⟨h.lt_size.le, .jump, d, hd⟩

theorem jumpAt_site {s : Nat} (h : CallSiteAt q c k (s + 4)) : c.JumpAt ⟨s, s + 4⟩ s := by
  have := h.jumpAt
  rwa [Nat.add_sub_cancel] at this

theorem keeps (h : CallSiteAt q c k r) {Q : List Nat} (hk : c.Keeps c' Q) (hq : q.Extends q') :
    CallSiteAt q' c' k r where
  laid := hk.laid
  four := h.four
  label := hk.mem h.label rfl
  jump := by
    obtain ⟨d, hd⟩ := h.jump
    obtain ⟨i', hj', hr⟩ := hk.lastJump h.lt_size.le hd
    obtain ⟨d', hd'⟩ := hr.branch
    exact ⟨d', (Prod.mk.inj hd').2 ▸ hj'⟩
  push := by
    obtain ⟨p, i, hp, hlen, hi⟩ := h.push
    refine ⟨p, i, hk.mem hp ?_, hlen, ?_⟩
    · have := Emitter.intInstruction_isJump (Int32.ofNat k) q
      rwa [hi] at this
    · have := intInstruction_of_extends (Int32.ofNat k) (q := q') (by rw [hi]; exact hq)
      rwa [hi] at this

/-- code that reads back as instructions ending with a push, a jump and a label has a call site
there -/
theorem of_holds {insts : List Instruction} {i : Instruction}
    (h : c.Holds (insts ++ [i, .branch BranchOp.jump 0, .simple SimpleOp.label]))
    (hq : intInstruction (Int32.ofNat k) q = (i, q)) :
    CallSiteAt q c k ((insts.flatMap Instruction.bytes).length + i.bytes.length + 4) := by
  have hjump : (Instruction.branch BranchOp.jump 0).bytes.length = 4 := by decide
  have hl : c.layout = Instruction.place 0 insts ++
      [((insts.flatMap Instruction.bytes).length, i),
        ((insts.flatMap Instruction.bytes).length + i.bytes.length, .branch BranchOp.jump 0)] ++
      [((insts.flatMap Instruction.bytes).length + i.bytes.length + 4, .simple SimpleOp.label)] := by
    rw [h.layout, Instruction.place_append]
    simp [Instruction.place, hjump, Nat.add_assoc]
  have hsub : (insts.flatMap Instruction.bytes).length + i.bytes.length + 4 - 4 =
      (insts.flatMap Instruction.bytes).length + i.bytes.length := Nat.add_sub_cancel _ _
  refine ⟨⟨_, h⟩, by omega, by rw [hl]; simp, ⟨0, ?_⟩,
    ⟨(insts.flatMap Instruction.bytes).length, i, by rw [hl]; simp, by rw [hsub], hq⟩⟩
  rw [hl, hsub, Span.lastJump_append_of (fun p hp => .inl (by simp at hp; simp [hp])),
    List.append_cons _ _ [_], Span.lastJump_concat (by simp) rfl]

end CallSiteAt

/-! ## One call site -/

namespace Emitter

variable {e e' : Emitter} {m : MethodState} {rest : List MethodState}

/-- the push of an integer writes the pending position records, then the instruction that the
pool after it spells for the integer, with nothing left to intern; no record is pending after -/
theorem pushInt_ok {v : Int32} (hm : e.methods = m :: rest) (h : pushInt v e = .ok () e') :
    e'.config = e.config ∧ e.assembler.pool.Extends e'.assembler.pool ∧ e'.Flushed ∧
      intInstruction v e'.assembler.pool = ((intInstruction v e'.assembler.pool).1,
        e'.assembler.pool) ∧
      ∃ m' site, e'.methods = m' :: rest ∧ m.Emits (intInstruction v e'.assembler.pool).1 site m' := by
  obtain ⟨i, e₁, h₁, h₂⟩ := EStateM.bind_eq_ok.mp h
  obtain ⟨site, h₂, -⟩ := EStateM.map_eq_ok h₂
  have hi : i = (intInstruction v e.assembler.pool).1 := onPool_value h₁
  have he₁ : e₁.assembler.pool = (intInstruction v e.assembler.pool).2 := by
    unfold onPool onAssembler Assembler.onPool at h₁
    cases h₁
    rfl
  have hint₁ := (onPool_interns (intInstruction_grows v)).ok h₁
  have hint₂ := (emit_interns i).ok h₂
  obtain ⟨hc₂, m₁, rest₁, m', hm₁, hm', hemit⟩ := emit_emits h₂
  rw [onPool_methods h₁, hm] at hm₁
  cases hm₁
  have hagain := intInstruction_of_extends v (he₁ ▸ hint₂.assembler.pool)
  refine ⟨hc₂.trans hint₁.config, hint₁.assembler.pool.trans hint₂.assembler.pool,
    flushed_of_emit h₂, by rw [hagain], m', site, hm', ?_⟩
  rw [hagain, ← hi]
  exact hemit

/-- **A call site into region `index`** writes, after the pending position records, the push of
the region's count of resumes, the jump at `site` and the label four bytes after it: a call site.
The region records the jump and the label, and nothing else of the method moves; no record is
pending after it. -/
theorem callSite_ok {index : Nat} (hm : e.methods = m :: rest) (hl : m.code.Laid)
    (h : callSite index e = .ok () e') :
    e'.config = e.config ∧ e.assembler.pool.Extends e'.assembler.pool ∧ e'.Flushed ∧
      ∃ m' site, e'.methods = m' :: rest ∧ m'.strict = m.strict ∧ m'.flow = m.flow ∧
        m'.exceptions = m.exceptions ∧
        m'.handlers = m.handlers.modify index (HandlerBlock.enter site) ∧ m.code.size ≤ site ∧
        (∃ W : List Instruction, (∀ i ∈ W, i.Fits) ∧
          m'.code = m.code.append (W.flatMap Instruction.bytes)) ∧
        CallSiteAt e'.assembler.pool m'.code ((m.handlers[index]?).getD default).resumes.length
          (site + 4) := by
  unfold callSite at h
  obtain ⟨b, e₀, h₀, h⟩ := EStateM.bind_eq_ok.mp h
  obtain ⟨rfl, m₀, rest₀, hm₀, rfl⟩ := handler_ok h₀
  rw [hm] at hm₀
  cases hm₀
  obtain ⟨_, e₁, h₁, h⟩ := EStateM.bind_eq_ok.mp h
  obtain ⟨hc₁, hq₁, hf₁, hagain, m₁, site₁, hm₁, hemit₁⟩ := pushInt_ok hm h₁
  obtain ⟨site, e₂, h₂, h⟩ := EStateM.bind_eq_ok.mp h
  rw [reserve_eq] at h₂
  obtain ⟨m₂, hw₂, hsite, hh₂, hfl₂, hs₂, hx₂⟩ := emit_of_flushed hf₁ hm₁ h₂
  have hm₂ := hw₂.methods_of hm₁
  obtain ⟨_, e₃, h₃, h⟩ := EStateM.bind_eq_ok.mp h
  have hf₃ := onMethod_flushed (hw₂.flushed (.inr (by simp))) h₃
  obtain ⟨m₃', rest₃, m₃, hm₃', hadj, rfl⟩ := onMethod_ok h₃
  rw [hm₂] at hm₃'
  cases hm₃'
  have hj₃ := (MethodM.adjustStack_keeps _).ok hadj
  obtain ⟨resume, e₄, h₄, h⟩ := EStateM.bind_eq_ok.mp h
  obtain ⟨m₄, hw₄, hresume, hh₄, hfl₄, hs₄, hx₄⟩ := emit_of_flushed hf₃ rfl h₄
  have hm₄ := hw₄.methods_of rfl
  have hf' := onMethod_flushed (hw₄.flushed (.inr (by simp))) h
  obtain ⟨m₅, rest₅, m', hm₅, hmod, rfl⟩ := onMethod_ok h
  rw [hm₄] at hm₅
  cases hm₅
  cases hmod
  set v := Int32.ofNat ((m.handlers[index]?).getD default).resumes.length
  have hjump : (Instruction.branch BranchOp.jump 0).bytes.length = 4 := by decide
  have hres : resume = site + 4 := by
    rw [hresume, hj₃.code, hw₂.code, hsite]
    simp [hjump]
  -- the pool after the call spells the push as the pool after the push did
  have hext : e₁.assembler.pool.Extends e₄.assembler.pool :=
    hw₂.interns.pool.trans hw₄.interns.pool
  have hspell : intInstruction v e₄.assembler.pool =
      ((intInstruction v e₁.assembler.pool).1, e₄.assembler.pool) :=
    intInstruction_of_extends v (by rw [hagain]; exact hext)
  obtain ⟨hs₁, hfl₁, hh₁, hx₁, A, hA, hfits, hsite₁, hc₁'⟩ := hemit₁
  have hcode : m₄.code = m.code.append ((A ++ [(intInstruction v e₁.assembler.pool).1,
      .branch BranchOp.jump 0, .simple SimpleOp.label]).flatMap Instruction.bytes) := by
    rw [hw₄.code, hj₃.code, hw₂.code, hc₁']
    simp
  have hW : ∀ i ∈ A ++ [(intInstruction v e₁.assembler.pool).1, .branch BranchOp.jump 0,
      .simple SimpleOp.label], i.Fits := by
    intro i hi
    simp only [List.mem_append, List.mem_cons, List.not_mem_nil, or_false] at hi
    rcases hi with hi | rfl | rfl | rfl
    · exact (hA i hi).1
    · exact hfits
    · show S24.Fits (0 : Int32).toInt
      decide
    · trivial
  have hsize : site = m.code.size + ((A ++ [(intInstruction v e₁.assembler.pool).1]).flatMap
      Instruction.bytes).length := by
    rw [hsite, hc₁', Buffer.size_append]
  refine ⟨hw₄.config.trans (hw₂.config.trans hc₁), hq₁.trans hext, hf', _, site, rfl,
    hs₄.trans (hj₃.strict.trans (hs₂.trans hs₁)), hfl₄.trans (hj₃.flow.trans (hfl₂.trans hfl₁)),
    hx₄.trans (hj₃.exceptions.trans (hx₂.trans hx₁)), ?_, by omega, ⟨_, hW, hcode⟩, ?_⟩
  · show m₄.handlers.modify index _ = _
    rw [hh₄, hj₃.handlers, hh₂, hh₁, hres]
    rfl
  · -- the code reads back as before, then the records, the push, the jump and the label
    obtain ⟨insts, hi⟩ := hl
    have hH : m₄.code.Holds ((insts ++ A) ++ [(intInstruction v e₁.assembler.pool).1,
        .branch BranchOp.jump 0, .simple SimpleOp.label]) := by
      rw [List.append_assoc, hcode]
      exact hi.append hW
    have hat := CallSiteAt.of_holds hH hspell
    have hpos : ((insts ++ A).flatMap Instruction.bytes).length +
        (intInstruction v e₁.assembler.pool).1.bytes.length + 4 = site + 4 := by
      rw [hsize, hi.size]
      simp [Nat.add_assoc]
    rw [hpos] at hat
    exact hat

end Emitter

/-! ## Regions entered from call sites -/


/-- Region `b'` is `b` entered from the call sites whose jumps are at `S`, written after the code
`c₀` into the code `c`: its call sites and resume points grow by theirs, in order; its finally
body had not started; and the `j`-th new site pushes the region's count of resumes before it. -/
structure HandlerBlock.EnteredAt (q : Pool) (c₀ c : Buffer) (S : List Nat) (b b' : HandlerBlock) :
    Prop where
  eq : b' = { b with callSites := b.callSites ++ S, resumes := b.resumes ++ S.map (· + 4) }
  runs : S ≠ [] → b.runsFinally = true
  ordered : S.Pairwise (· < ·)
  fresh : ∀ s ∈ S, c₀.size ≤ s ∧ s + 4 < c.size
  sites : ∀ j s, S[j]? = some s → CallSiteAt q c (b.resumes.length + j) (s + 4)

namespace HandlerBlock.EnteredAt

variable {q q' : Pool} {c₀ c c' : Buffer} {S S' : List Nat} {b b' b'' : HandlerBlock}

theorem refl (b : HandlerBlock) : b.EnteredAt q c₀ c [] b :=
  ⟨by simp, fun h => absurd rfl h, .nil, by simp, by simp⟩

theorem trans (h : b.EnteredAt q c₀ c S b') (h' : b'.EnteredAt q' c c' S' b'') (hc : c.Appends c')
    (hc₀ : c₀.size ≤ c.size) (hq : q.Extends q') : b.EnteredAt q' c₀ c' (S ++ S') b'' := by
  have hruns : b'.runsFinally = b.runsFinally := by rw [h.eq]; rfl
  have hlen : b'.resumes.length = b.resumes.length + S.length := by rw [h.eq]; simp
  refine ⟨by rw [h'.eq, h.eq]; simp, fun hne => ?_, ?_, fun s hs => ?_, fun j s hj => ?_⟩
  · by_cases hS : S = []
    · rw [← hruns]
      exact h'.runs (by simpa [hS] using hne)
    · exact h.runs hS
  · refine List.pairwise_append.mpr ⟨h.ordered, h'.ordered, fun a ha a' ha' => ?_⟩
    have := (h.fresh a ha).2
    have := (h'.fresh a' ha').1
    omega
  · rcases List.mem_append.mp hs with hs | hs
    · exact ⟨(h.fresh s hs).1, (h.fresh s hs).2.trans_le hc.size⟩
    · exact ⟨hc₀.trans (h'.fresh s hs).1, (h'.fresh s hs).2⟩
  · rw [List.getElem?_append] at hj
    split at hj
    · exact (h.sites j s hj).keeps (hc.keeps (h.sites j s hj).laid) hq
    · have hat := h'.sites (j - S.length) s hj
      rwa [hlen, Nat.add_assoc, Nat.add_sub_cancel' (by omega)] at hat

theorem enter {site : Nat} (hb : b.runsFinally = true) (hs : c₀.size ≤ site)
    (hat : CallSiteAt q c b.resumes.length (site + 4)) :
    b.EnteredAt q c₀ c [site] (b.enter site) := by
  refine ⟨rfl, fun _ => hb, List.pairwise_singleton _ _, fun s hs' => ?_, fun j s hj => ?_⟩
  · rw [List.mem_singleton.mp hs']
    exact ⟨hs, hat.lt_size⟩
  · cases j with
    | zero =>
      cases hj
      exact hat
    | succ j => simp at hj

end HandlerBlock.EnteredAt

/-- the regions after a call site into region `index` are each entered: that one from the site,
the others from none -/
theorem HandlerBlock.forall₂_enter {q : Pool} {c₀ c : Buffer} {site : Nat} :
    ∀ (hs : List HandlerBlock) (index : Nat),
      (∀ b, hs[index]? = some b → b.EnteredAt q c₀ c [site] (b.enter site)) →
      List.Forall₂ (fun b b' => ∃ S, b.EnteredAt q c₀ c S b') hs
        (hs.modify index (HandlerBlock.enter site))
  | [], _, _ => by
    rw [List.modify_nil]
    exact .nil
  | b :: hs, 0, h => by
    rw [List.modify_zero_cons]
    exact .cons ⟨_, h b rfl⟩ (List.forall₂_same.mpr fun b _ => ⟨[], .refl b⟩)
  | b :: hs, index + 1, h => by
    rw [List.modify_succ_cons]
    exact .cons ⟨[], .refl b⟩ (forall₂_enter hs index h)

/-- `m'` is `m` with whole instructions written after its code and every region entered from
call sites among them -/
structure MethodState.Enters (q : Pool) (m m' : MethodState) : Prop where
  code : m.code.Appends m'.code
  handlers : List.Forall₂ (fun b b' => ∃ S, b.EnteredAt q m.code m'.code S b') m.handlers m'.handlers

/-- the options are as they were, the pool only grew, and only the innermost method moved: its
code grew and its regions were entered from call sites -/
structure Emitter.Enters (e e' : Emitter) : Prop where
  config : e'.config = e.config
  pool : e.assembler.pool.Extends e'.assembler.pool
  methods : Innermost (MethodState.Enters e'.assembler.pool) e.methods e'.methods

namespace MethodState.Enters

variable {q q' : Pool} {m m' m'' : MethodState}

theorem refl (q : Pool) (m : MethodState) : m.Enters q m :=
  ⟨.refl _, List.forall₂_same.mpr fun b _ => ⟨[], .refl b⟩⟩

theorem trans (h : m.Enters q m') (h' : m'.Enters q' m'') (hq : q.Extends q') : m.Enters q' m'' :=
  ⟨h.code.trans h'.code, List.Forall₂.trans_right h.handlers h'.handlers fun _ _ _ ⟨S, hb⟩ ⟨S', hb'⟩ =>
    ⟨S ++ S', hb.trans hb' h'.code h.code.size hq⟩⟩

theorem of_same (hc : m'.code = m.code) (hh : m'.handlers = m.handlers) (q : Pool) :
    m.Enters q m' := by
  refine ⟨by rw [hc]; exact .refl _, ?_⟩
  rw [hh]
  exact List.forall₂_same.mpr fun b _ => ⟨[], .refl b⟩

theorem of_writes (h : m.Writes m') (q : Pool) : m.Enters q m' := by
  obtain ⟨-, -, hh, -, A, hA, hc⟩ := h
  refine ⟨⟨A, fun i hi => (hA i hi).1, hc⟩, ?_⟩
  rw [hh]
  exact List.forall₂_same.mpr fun b _ => ⟨[], .refl b⟩

theorem of_emits {i : Instruction} {site : Nat} (h : m.Emits i site m') (q : Pool) :
    m.Enters q m' := by
  obtain ⟨-, -, hh, -, A, hA, hi, -, hc⟩ := h
  refine ⟨⟨A ++ [i], fun j hj => ?_, hc⟩, ?_⟩
  · rcases List.mem_append.mp hj with hj | hj
    · exact (hA j hj).1
    · rw [List.mem_singleton.mp hj]
      exact hi
  · rw [hh]
    exact List.forall₂_same.mpr fun b _ => ⟨[], .refl b⟩

end MethodState.Enters

/-- `m'` keeps the code of `m`, and each of its regions, entered from call sites at most: what a
call that opens, closes or changes no region does to the innermost method -/
structure MethodState.Proceeds (q : Pool) (m m' : MethodState) : Prop where
  keeps : ∃ L, m.code.Keeps m'.code L
  regions : List.Forall₂ (fun b b' => ∃ S, b.EnteredAt q m.code m'.code S b') m.handlers m'.handlers

namespace MethodState.Proceeds

variable {q : Pool} {m m' : MethodState}

theorem of_keeps {L : List Nat} (hk : m.code.Keeps m'.code L) (hh : m'.handlers = m.handlers) :
    m.Proceeds q m' :=
  ⟨⟨L, hk⟩, by rw [hh]; exact List.forall₂_same.mpr fun b _ => ⟨[], .refl b⟩⟩

theorem of_enters (h : m.Enters q m') (hl : m.code.Laid) : m.Proceeds q m' :=
  ⟨⟨[], h.code.keeps hl⟩, h.handlers⟩

end MethodState.Proceeds

theorem Innermost.comp {r r' r'' : MethodState → MethodState → Prop}
    (hr : ∀ m m' m'', r m m' → r' m' m'' → r'' m m'') {ms ms' ms'' : List MethodState}
    (h : Innermost r ms ms') (h' : Innermost r' ms' ms'') : Innermost r'' ms ms'' := by
  cases h with
  | none => cases h'; exact .none
  | head hm => cases h' with
    | head hm' => exact .head (hr _ _ _ hm hm')

namespace Emitter.Enters

variable {e e' e'' : Emitter}

theorem refl (e : Emitter) : e.Enters e :=
  ⟨rfl, .refl _, by cases e.methods <;> constructor; exact .refl _ _⟩

theorem trans (h : e.Enters e') (h' : e'.Enters e'') : e.Enters e'' := by
  refine ⟨h'.config.trans h.config, h.pool.trans h'.pool, ?_⟩
  exact h.methods.comp (fun _ _ _ hs hs' => hs.trans hs' h'.pool) h'.methods

end Emitter.Enters

instance : IsPreorder Emitter Emitter.Enters where
  refl := Emitter.Enters.refl
  trans _ _ _ := Emitter.Enters.trans

theorem Emitter.Enters.inner_laid {e e' : Emitter} (h : e.Enters e')
    (hl : Emitter.Inner (fun m => m.code.Laid) e) : Emitter.Inner (fun m => m.code.Laid) e' := by
  intro m' hm'
  have hl' : ∀ m ∈ e.methods.head?, m.code.Laid := hl
  have hin := h.methods
  generalize e.methods = ms at hin hl'
  generalize e'.methods = ms' at hin hm'
  cases hin with
  | none => cases hm'
  | head hmm =>
    cases hm'
    exact (hmm.code.keeps (hl' _ rfl)).laid

/-! ## The steps that enter regions -/

namespace Emitter

variable {e e' : Emitter} {m : MethodState} {rest : List MethodState}

theorem inner_of_head {P : MethodState → Prop} (hm : e.methods = m :: rest) (hp : P m) :
    Inner P e := by
  intro m' hm'
  rw [hm, List.head?_cons, Option.mem_def, Option.some.injEq] at hm'
  exact hm' ▸ hp

theorem enters_of {α : Type} {act : EmitM α} (hw : OnSuccess Emitter.Writes act)
    (hi : OnlyInterns act) : OnSuccess Emitter.Enters act := fun e x e' h =>
  ⟨(hw e x e' h).config, (hi.ok h).assembler.pool,
    (hw e x e' h).methods.mono fun _ _ hm => MethodState.Enters.of_writes hm _⟩

theorem enters_laid {α : Type} {act : EmitM α} (h : OnSuccess Emitter.Enters act) :
    OkTriple Emitter.Enters (Inner fun m => m.code.Laid) act fun _ => Inner fun m => m.code.Laid :=
  fun e x e' hl he => ⟨h e x e' he, (h e x e' he).inner_laid hl⟩

/-- a step that writes no jump and only interns keeps the innermost code laid out -/
theorem writing {α : Type} {act : EmitM α} (hw : OnSuccess Emitter.Writes act)
    (hi : OnlyInterns act) :
    OkTriple Emitter.Enters (Inner fun m => m.code.Laid) act fun _ => Inner fun m => m.code.Laid :=
  enters_laid (enters_of hw hi)

/-- a call site into a region whose finally body has not started enters it -/
theorem callSite_enters {index : Nat} (hm : e.methods = m :: rest) (hl : m.code.Laid)
    (hr : ((m.handlers[index]?).getD default).runsFinally = true)
    (h : callSite index e = .ok () e') : e.Enters e' := by
  obtain ⟨hc, hq, -, m', site, hm', -, -, -, hh, hs, hW, hat⟩ := callSite_ok hm hl h
  refine ⟨hc, hq, ?_⟩
  rw [hm, hm']
  refine .head ⟨hW, ?_⟩
  rw [hh]
  refine HandlerBlock.forall₂_enter _ _ fun b hb => ?_
  rw [hb, Option.getD_some] at hr hat
  exact .enter hr hs hat

/-- Leaving regions from the innermost outward enters each one left whose finally body has not
started, through one call site. -/
theorem unwindFrom_enters (loopIndex : Option Nat) (limit : Nat) :
    ∀ indices called, OkTriple Emitter.Enters (Inner fun m => m.code.Laid)
      (unwindFrom loopIndex limit indices called) fun _ => Inner fun m => m.code.Laid
  | [], _ => OkTriple.pure fun _ h => h
  | index :: rest, called => fun e n e' hl h => by
    unfold unwindFrom at h
    split at h
    · cases h
      exact ⟨refl_of _ e, hl⟩
    obtain ⟨block, e₁, h₁, h⟩ := EStateM.bind_eq_ok.mp h
    obtain ⟨he₁, m, rest₁, hm, rfl⟩ := handler_ok h₁
    subst e₁
    split at h
    · cases h
      exact ⟨refl_of _ e, hl⟩
    obtain ⟨_, e₂, h₂, h⟩ := EStateM.bind_eq_ok.mp h
    obtain ⟨-, m₂, hm₂, hw₂⟩ := writes_innermost (popScopesTo_writes _) h₂ hm
    have h₂' : e.Enters e₂ := enters_of (popScopesTo_writes _) (popScopesTo_interns _) _ _ _ h₂
    have hl₂ := h₂'.inner_laid hl
    split at h
    · next hr =>
      -- the region's finally body has not started: one call site enters it
      obtain ⟨_, e₃, h₃, h⟩ := EStateM.bind_eq_ok.mp h
      have h₃' : e₂.Enters e₃ :=
        callSite_enters hm₂ (hl₂ m₂ (by simp [hm₂])) (by rwa [hw₂.handlers]) h₃
      obtain ⟨h', hl'⟩ := unwindFrom_enters loopIndex limit rest _ e₃ n e' (h₃'.inner_laid hl₂) h
      exact ⟨(h₂'.trans h₃').trans h', hl'⟩
    · obtain ⟨h', hl'⟩ := unwindFrom_enters loopIndex limit rest _ e₂ n e' hl₂ h
      exact ⟨h₂'.trans h', hl'⟩

theorem unwind_enters (loopIndex : Option Nat) (limit : Nat) :
    OkTriple Emitter.Enters (Inner fun m => m.code.Laid) (unwind loopIndex limit)
      fun _ => Inner fun m => m.code.Laid :=
  (writing current_writes current_interns).bind fun _ => unwindFrom_enters loopIndex limit _ _

theorem callFinallies_enters (limit : Nat) :
    OkTriple Emitter.Enters (Inner fun m => m.code.Laid) (callFinallies limit)
      fun _ => Inner fun m => m.code.Laid :=
  unwind_enters none limit

/-- returning runs every finally body not started, through one call site each -/
theorem returnValue_enters :
    OkTriple Emitter.Enters (Inner fun m => m.code.Laid) returnValue
      fun _ => Inner fun m => m.code.Laid := by
  unfold returnValue
  refine (writing hasPendingFinally_writes hasPendingFinally_interns).bind fun pending => ?_
  split
  · exact writing ((simple_writes _).bind fun _ => OnSuccess.pure _)
      ((simple_interns _).bind fun _ => OnlyInterns.pure _)
  refine (writing (onMethod_keeps fun _ => snapshot_keeps) (onMethod_interns _)).bind fun _ => ?_
  refine (writing allocTemp_writes allocTemp_interns).bind fun value => ?_
  refine (writing (setLocal_writes _) (setLocal_interns _)).bind fun _ => ?_
  refine (writing current_writes current_interns).bind fun _ => ?_
  refine (unwind_enters _ _).discard.bind fun _ => writing ?_ ?_
  · exact (getLocal_writes _).bind fun _ => (kill_writes _).bind fun _ =>
      (simple_writes _).bind fun _ => onMethod_keeps fun _ =>
        (MethodM.freeTemp_keeps _).bind fun _ => (MethodM.restore_keeps _).bind fun _ =>
          MethodM.adjustStack_keeps _
  · exact (getLocal_interns _).bind fun _ => (kill_interns _).bind fun _ =>
      (simple_interns _).bind fun _ => onMethod_interns _

theorem returnVoid_enters :
    OkTriple Emitter.Enters (Inner fun m => m.code.Laid) returnVoid
      fun _ => Inner fun m => m.code.Laid := by
  unfold returnVoid
  refine (writing hasPendingFinally_writes hasPendingFinally_interns).bind fun pending => ?_
  split
  · exact writing ((simple_writes _).bind fun _ => OnSuccess.pure _)
      ((simple_interns _).bind fun _ => OnlyInterns.pure _)
  refine (writing (onMethod_keeps fun _ => snapshot_keeps) (onMethod_interns _)).bind fun _ => ?_
  refine (writing current_writes current_interns).bind fun _ => ?_
  refine (unwind_enters _ _).discard.bind fun _ => writing ?_ ?_
  · exact (simple_writes _).bind fun _ => onMethod_keeps fun _ => MethodM.restore_keeps _
  · exact (simple_interns _).bind fun _ => onMethod_interns _

/-- **Every call that shapes no flow enters regions at most**, from a method whose code is laid
out: it writes whole instructions into the innermost method, and enters its regions from the call
sites among them. -/
theorem perform_enters (c : Call) (hc : c.shapesFlow = false) {r : Reply}
    (hl : Inner (fun m => m.code.Laid) e) (h : perform c e = .ok r e') :
    Innermost (MethodState.Enters e'.assembler.pool) e.methods e'.methods := by
  cases hw : c.onlyWrites
  · cases c with
    | emit i =>
      obtain ⟨site, h, -⟩ := EStateM.map_eq_ok h
      obtain ⟨-, m, rest, m', hm, hm', hme⟩ := emit_emits h
      rw [hm, hm']
      exact .head (.of_emits hme _)
    | callFinallies limit => exact ((callFinallies_enters limit).map e r e' hl h).1.methods
    | returnValue =>
      have ht : OkTriple Emitter.Enters (Inner fun m => m.code.Laid) (perform .returnValue)
          fun _ => Inner fun m => m.code.Laid :=
        returnValue_enters.bind fun _ => OkTriple.pure fun _ h => h
      exact (ht e r e' hl h).1.methods
    | returnVoid =>
      have ht : OkTriple Emitter.Enters (Inner fun m => m.code.Laid) (perform .returnVoid)
          fun _ => Inner fun m => m.code.Laid :=
        returnVoid_enters.bind fun _ => OkTriple.pure fun _ h => h
      exact (ht e r e' hl h).1.methods
    | _ => simp [Call.onlyWrites, hc] at hw
  · exact ((perform_writes c hw) e r e' h).methods.mono fun _ _ hm => .of_writes hm _

end Emitter

end AbcKit.Emit
