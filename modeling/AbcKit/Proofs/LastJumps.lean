import AbcKit.Proofs.Layout
/-!
Where the jump that a call wrote sits in the code of its method, and what later steps do to it.

`Buffer.layout` is the code as it reads back. `c.Keeps c' Q` says that `c'` is `c` with the
displacements of some branches at the sites `Q` changed and instructions written after it: every
other instruction of `c` stays where and what it was (`Instruction.Relands`). Writing whole
instructions keeps the code (`Buffer.keeps_append`), so does landing branches of its layout
(`Buffer.keeps_setSlot`, `Buffer.keeps_landAll`), and keeping composes (`Buffer.Keeps.trans`).

`c.JumpAt sp s`: the last jump of the span `sp` lies inside `c` and is a branch at `s`. A span that
ends inside the code keeps its last jump at the same site however the code is kept
(`Buffer.Keeps.lastJump`), and the same instruction unless its site is landed; a branch written
last in a call is the last jump of the call's span (`Span.lastJump_concat`), and instructions
without jumps written after it leave it so.
-/
namespace AbcKit

/-! ## The layout of a buffer -/

/-- the code as it reads back: its instructions with their offsets, none when it does not read -/
def Buffer.layout (c : Buffer) : List (Nat × Instruction) :=
  match Code.decode c.toList with
  | .ok L => L
  | .error _ => []

namespace Buffer

variable {c c' c'' : Buffer} {insts : List Instruction}

theorem Holds.layout (h : c.Holds insts) : c.layout = Instruction.place 0 insts := by
  rw [Buffer.layout, h.decode]

theorem Holds.lt_size (h : c.Holds insts) {p : Nat × Instruction} (hp : p ∈ c.layout) :
    p.1 < c.size := by
  rw [h.layout] at hp
  have := (Instruction.offset_lt_of_mem_place h.fits hp).2
  rw [h.size]
  omega

end Buffer

/-! ## Keeping the code -/

/-- `p'` is `p`, or `p` is a branch at one of the sites `Q` and `p'` the same branch with another
displacement -/
def Instruction.Relands (Q : List Nat) (p p' : Nat × Instruction) : Prop :=
  p' = p ∨ p.1 ∈ Q ∧ ∃ op d d', p.2 = .branch op d ∧ p' = (p.1, .branch op d')

namespace Instruction.Relands

variable {Q Q' : List Nat} {p p' p'' : Nat × Instruction}

theorem fst (h : Relands Q p p') : p'.1 = p.1 := by
  rcases h with rfl | ⟨-, _, _, _, -, rfl⟩ <;> rfl

theorem isJump (h : Relands Q p p') : p'.2.isJump = p.2.isJump := by
  rcases h with rfl | ⟨-, _, _, _, hp, rfl⟩
  · rfl
  · rw [hp]
    rfl

theorem eq_of_not_mem (h : Relands Q p p') (hp : p.1 ∉ Q) : p' = p := by
  rcases h with h | ⟨hq, -⟩
  · exact h
  · exact absurd hq hp

theorem branch {op : BranchOp} {d : Int32} {s : Nat} (h : Relands Q (s, .branch op d) p') :
    ∃ d', p' = (s, .branch op d') := by
  rcases h with rfl | ⟨-, op', d₀, d', hp, rfl⟩
  · exact ⟨d, rfl⟩
  · cases hp
    exact ⟨d', rfl⟩

theorem mono (h : Relands Q p p') (hQ : ∀ q ∈ Q, q ∈ Q') : Relands Q' p p' := by
  rcases h with h | ⟨hq, h⟩
  · exact .inl h
  · exact .inr ⟨hQ _ hq, h⟩

theorem trans (h : Relands Q p p') (h' : Relands Q' p' p'') : Relands (Q ++ Q') p p'' := by
  rcases h with rfl | ⟨hq, op, d, d', hp, rfl⟩
  · exact h'.mono fun q hq => List.mem_append_right _ hq
  · obtain ⟨d'', rfl⟩ := h'.branch
    exact .inr ⟨List.mem_append_left _ hq, op, d, d'', hp, rfl⟩

end Instruction.Relands

theorem Instruction.relands_land (Q : List Nat) (t : Nat) (p : Nat × Instruction) :
    Relands Q p (land Q t p) := by
  obtain ⟨s, i⟩ := p
  unfold land
  split
  · next hs =>
    cases i with
    | branch op d => exact .inr ⟨hs, op, d, _, rfl, rfl⟩
    | _ => exact .inl rfl
  · exact .inl rfl

/-- `c'` keeps the code of `c` but for the displacements of branches at `Q`: it is laid out, and
its layout is that of `c`, each instruction relanded at most, followed by instructions at or
after the end of `c` -/
structure Buffer.Keeps (c c' : Buffer) (Q : List Nat) : Prop where
  laid : c'.Laid
  size : c.size ≤ c'.size
  layout : ∃ g : Nat × Instruction → Nat × Instruction, (∀ p, Instruction.Relands Q p (g p)) ∧
    ∃ R, (∀ p ∈ R, c.size ≤ p.1) ∧ c'.layout = c.layout.map g ++ R

namespace Buffer

variable {c c' c'' : Buffer} {Q Q' : List Nat} {insts : List Instruction}

theorem Keeps.refl (h : c.Laid) : c.Keeps c [] :=
  ⟨h, le_refl _, id, fun _ => .inl rfl, [], by simp, by simp⟩

theorem Keeps.trans (h : c.Keeps c' Q) (h' : c'.Keeps c'' Q') : c.Keeps c'' (Q ++ Q') := by
  obtain ⟨-, hs, g, hg, R, hR, hl⟩ := h
  obtain ⟨hlaid, hs', g', hg', R', hR', hl'⟩ := h'
  refine ⟨hlaid, hs.trans hs', g' ∘ g, fun p => (hg p).trans (hg' (g p)), R.map g' ++ R', ?_, ?_⟩
  · intro p hp
    rcases List.mem_append.mp hp with hp | hp
    · obtain ⟨q, hq, rfl⟩ := List.mem_map.mp hp
      rw [(hg' q).fst]
      exact hR q hq
    · exact hs.trans (hR' p hp)
  · rw [hl', hl, List.map_append, List.map_map, List.append_assoc]

theorem Keeps.mono (h : c.Keeps c' Q) (hQ : ∀ q ∈ Q, q ∈ Q') : c.Keeps c' Q' := by
  obtain ⟨hlaid, hs, g, hg, R, hR, hl⟩ := h
  exact ⟨hlaid, hs, g, fun p => (hg p).mono hQ, R, hR, hl⟩

theorem keeps_append (h : c.Holds insts) {W : List Instruction} (hW : ∀ i ∈ W, i.Fits) :
    c.Keeps (c.append (W.flatMap Instruction.bytes)) [] := by
  refine ⟨⟨_, h.append hW⟩, by simp, id, fun _ => .inl rfl, Instruction.place c.size W,
    fun p hp => (Instruction.offset_lt_of_mem_place hW hp).1, ?_⟩
  rw [(h.append hW).layout, h.layout, Instruction.place_append, List.map_id, Nat.zero_add, h.size]

theorem keeps_setSlot {s t : Nat} (hs : c.BranchAt s) (hv : S24.Fits ((t : Int) - s - 4)) :
    c.Keeps (c.setSlot (s + 1) ((t : Int) - s - 4)) [s] := by
  obtain ⟨insts, h, op, d, hmem⟩ := hs
  obtain ⟨insts', h', hplace⟩ := h.land hmem hv
  refine ⟨⟨_, h'⟩, by simp, _, Instruction.relands_land [s] t, [], by simp, ?_⟩
  rw [h'.layout, h.layout, hplace, List.append_nil]

theorem size_foldl_setSlot {t : Nat} (sites : List Nat) (c : Buffer) :
    (sites.foldl (fun c s => c.setSlot (s + 1) ((t : Int) - s - 4)) c).size = c.size := by
  induction sites generalizing c with
  | nil => rfl
  | cons s rest ih => rw [List.foldl_cons, ih, size_setSlot]

/-- landing several branches of the layout on one address keeps the code, each of them landed -/
theorem keeps_landAll {t : Nat} {sites : List Nat} (h : c.Holds insts)
    (hs : ∀ s ∈ sites, (∃ op d, (s, .branch op d) ∈ c.layout) ∧ S24.Fits ((t : Int) - s - 4)) :
    c.Keeps (sites.foldl (fun c s => c.setSlot (s + 1) ((t : Int) - s - 4)) c) sites ∧
      (sites.foldl (fun c s => c.setSlot (s + 1) ((t : Int) - s - 4)) c).layout =
        c.layout.map (Instruction.land sites t) := by
  rw [h.layout] at hs
  obtain ⟨insts', h', hplace⟩ := Holds.landAll sites h hs
  have hl : (sites.foldl (fun c s => c.setSlot (s + 1) ((t : Int) - s - 4)) c).layout =
      c.layout.map (Instruction.land sites t) := by
    rw [h'.layout, h.layout, hplace]
  exact ⟨⟨⟨_, h'⟩, (size_foldl_setSlot sites c).ge, _, Instruction.relands_land sites t, [],
    by simp, by rw [hl, List.append_nil]⟩, hl⟩

end Buffer

/-! ## The last jump of a span -/

namespace Emit.Span

variable {sp : Span} {L R : List (Nat × Instruction)}

theorem lastJump_append_of (hR : ∀ p ∈ R, sp.hi ≤ p.1 ∨ p.2.isJump = false) :
    sp.lastJump (L ++ R) = sp.lastJump L := by
  have hnil : R.filter (fun p => decide (sp.lo ≤ p.1) && decide (p.1 < sp.hi) && p.2.isJump) = [] := by
    refine List.filter_eq_nil_iff.mpr fun p hp => ?_
    rcases hR p hp with h | h
    · have : ¬ p.1 < sp.hi := by omega
      simp [this]
    · simp [h]
  unfold lastJump
  rw [List.filter_append, hnil, List.append_nil]

/-- a step that moves no offset and keeps every jump a jump moves the last jump along -/
theorem lastJump_map {g : Nat × Instruction → Nat × Instruction}
    (hg : ∀ p, (g p).1 = p.1 ∧ (g p).2.isJump = p.2.isJump) (L : List (Nat × Instruction)) :
    sp.lastJump (L.map g) = (sp.lastJump L).map g := by
  unfold lastJump
  rw [List.filter_map, ← List.getLast?_map]
  congr 2
  exact List.filter_congr fun p _ => by simp [(hg p).1, (hg p).2]

theorem lastJump_hi {lo hi hi' : Nat} (hL : ∀ p ∈ L, p.1 < hi ∧ p.1 < hi') :
    (⟨lo, hi⟩ : Span).lastJump L = (⟨lo, hi'⟩ : Span).lastJump L := by
  unfold lastJump
  congr 1
  exact List.filter_congr fun p hp => by simp [(hL p hp).1, (hL p hp).2]

theorem lastJump_mem {s : Nat} {i : Instruction} (h : sp.lastJump L = some (s, i)) :
    (s, i) ∈ L ∧ sp.lo ≤ s ∧ s < sp.hi ∧ i.isJump = true := by
  have hmem := List.mem_filter.mp (List.mem_of_getLast? h)
  simp only [Bool.and_eq_true, decide_eq_true_eq] at hmem
  exact ⟨hmem.1, hmem.2.1.1, hmem.2.1.2, hmem.2.2⟩

theorem lastJump_concat {x : Nat × Instruction} (hx : sp.lo ≤ x.1 ∧ x.1 < sp.hi)
    (hj : x.2.isJump = true) : sp.lastJump (L ++ [x]) = some x := by
  unfold lastJump
  rw [List.filter_append, List.filter_singleton]
  simp [hx.1, hx.2, hj]

end Emit.Span

/-- in `c`, the span `sp` ends inside the code and its last jump is a branch at `s` -/
def Buffer.JumpAt (c : Buffer) (sp : Emit.Span) (s : Nat) : Prop :=
  sp.hi ≤ c.size ∧ ∃ op d, sp.lastJump c.layout = some (s, .branch op d)

namespace Buffer

variable {c c' : Buffer} {Q : List Nat} {sp : Emit.Span} {s : Nat}

/-- kept code keeps the last jump of a span inside it at its site, and changes it only by
landing it when the site is among `Q` -/
theorem Keeps.lastJump (h : c.Keeps c' Q) (hsp : sp.hi ≤ c.size) {i : Instruction}
    (hj : sp.lastJump c.layout = some (s, i)) :
    ∃ i', sp.lastJump c'.layout = some (s, i') ∧ Instruction.Relands Q (s, i) (s, i') := by
  obtain ⟨-, -, g, hg, R, hR, hl⟩ := h
  have hq : g (s, i) = (s, (g (s, i)).2) := Prod.ext (hg (s, i)).fst rfl
  refine ⟨(g (s, i)).2, ?_, hq ▸ hg (s, i)⟩
  rw [hl, Emit.Span.lastJump_append_of fun p hp => .inl (hsp.trans (hR p hp)),
    Emit.Span.lastJump_map (fun p => ⟨(hg p).fst, (hg p).isJump⟩), hj, Option.map_some, hq]

theorem JumpAt.keeps (h : c.JumpAt sp s) (hk : c.Keeps c' Q) : c'.JumpAt sp s := by
  obtain ⟨hsp, op, d, hj⟩ := h
  obtain ⟨i', hj', hr⟩ := hk.lastJump hsp hj
  obtain ⟨d', hd'⟩ := hr.branch
  cases hd'
  exact ⟨hsp.trans hk.size, op, d', hj'⟩

theorem JumpAt.mem (h : c.JumpAt sp s) : ∃ op d, (s, .branch op d) ∈ c.layout := by
  obtain ⟨-, op, d, hj⟩ := h
  exact ⟨op, d, (List.mem_filter.mp (List.mem_of_getLast? hj)).1⟩

/-- landing the branches at `Q` on `t`, `s` among them, points the last jump at `t` -/
theorem JumpAt.land {t : Nat} (h : c.JumpAt sp s) (hl : c'.layout = c.layout.map (Instruction.land Q t))
    (hs : s ∈ Q) (hv : S24.Fits ((t : Int) - s - 4)) :
    ∃ i, sp.lastJump c'.layout = some (s, i) ∧ i.targets s = [(t : Int)] := by
  obtain ⟨-, op, d, hj⟩ := h
  refine ⟨.branch op (Int32.ofInt ((t : Int) - s - 4)), ?_, Instruction.targets_branch hv⟩
  rw [hl, Emit.Span.lastJump_map (fun p => ⟨(Instruction.relands_land Q t p).fst,
    (Instruction.relands_land Q t p).isJump⟩), hj]
  simp [Instruction.land, hs, Instruction.retarget]

end Buffer

end AbcKit
