import AbcKit.Proofs.Effects
/-!
A method's code stays a layout of instructions while it is written.

The bytes of a buffer are the instructions of at most one list (`Buffer.Holds.unique`); over that
list, `c.BranchAt s` says that a branch starts at `s`, and `c.Boundary a` that an instruction
starts at `a` or the code ends there. `c.Grows c'`: `c'` keeps the layout of `c`, its branches and
its boundaries. Appending whole instructions grows a buffer, and so does landing a branch of the
layout, which rewrites its displacement and nothing else (`Buffer.grows_append`,
`Buffer.grows_setSlot`).

A method is `MethodState.Laid` when its code is laid out and every branch it leaves pending is a
branch of the layout, so that landing it later keeps the layout. `MethodState.Grows` is what the
calls that open, close or land no try region may do to the innermost method: grow its code, and
leave its exception table and the ranges of its try regions as they were.
-/
namespace AbcKit

/-! ## One layout per buffer -/

@[simp] theorem Instruction.map_snd_place (pos : Nat) (insts : List Instruction) :
    (Instruction.place pos insts).map Prod.snd = insts := by
  induction insts generalizing pos with
  | nil => rfl
  | cons i is ih => simp [Instruction.place, ih]

@[simp] theorem Instruction.fst_land (ss : List Nat) (t : Nat) (p : Nat × Instruction) :
    (Instruction.land ss t p).1 = p.1 := by
  unfold Instruction.land
  split <;> rfl

namespace Buffer

variable {c c' c'' : Buffer} {insts insts' : List Instruction}

theorem Holds.unique (h : c.Holds insts) (h' : c.Holds insts') : insts = insts' := by
  have hplace : Instruction.place 0 insts = Instruction.place 0 insts' := by
    have hdecode := h.decode.symm.trans h'.decode
    injection hdecode
  rw [← Instruction.map_snd_place 0 insts, hplace, Instruction.map_snd_place]

/-- the bytes are whole instructions whose operands fit -/
def Laid (c : Buffer) : Prop := ∃ insts, c.Holds insts

/-- a branch starts at `s` -/
def BranchAt (c : Buffer) (s : Nat) : Prop :=
  ∃ insts, c.Holds insts ∧ ∃ op d, (s, Instruction.branch op d) ∈ Instruction.place 0 insts

/-- an instruction starts at `a`, or the code ends there -/
def Boundary (c : Buffer) (a : Nat) : Prop :=
  ∃ insts, c.Holds insts ∧ (a ∈ (Instruction.place 0 insts).map Prod.fst ∨ a = c.size)

theorem BranchAt.laid {s : Nat} (h : c.BranchAt s) : c.Laid :=
  let ⟨insts, hc, _⟩ := h
  ⟨insts, hc⟩

theorem Laid.boundary_size (h : c.Laid) : c.Boundary c.size :=
  let ⟨insts, hc⟩ := h
  ⟨insts, hc, .inr rfl⟩

theorem Boundary.decode {a : Nat} (h : c.Boundary a) :
    ∃ L, Code.decode c.toList = .ok L ∧ (a ∈ L.map Prod.fst ∨ a = c.toList.length) := by
  obtain ⟨insts, hc, ha⟩ := h
  refine ⟨_, hc.decode, ?_⟩
  simpa [Buffer.size, Buffer.toList] using ha

/-- `c'` keeps the layout of `c`: it is laid out when `c` is, with every branch and every
boundary of `c` -/
structure Grows (c c' : Buffer) : Prop where
  laid : c.Laid → c'.Laid
  branch : ∀ s, c.BranchAt s → c'.BranchAt s
  boundary : ∀ a, c.Boundary a → c'.Boundary a
  size : c.size ≤ c'.size

theorem Grows.refl (c : Buffer) : c.Grows c := ⟨id, fun _ => id, fun _ => id, le_refl _⟩

theorem Grows.trans (h : c.Grows c') (h' : c'.Grows c'') : c.Grows c'' :=
  ⟨h'.laid ∘ h.laid, fun s => h'.branch s ∘ h.branch s, fun a => h'.boundary a ∘ h.boundary a,
    h.size.trans h'.size⟩

instance : IsPreorder Buffer Grows where
  refl := Grows.refl
  trans _ _ _ := Grows.trans

theorem grows_append {W : List Instruction} (hW : ∀ i ∈ W, i.Fits) :
    c.Grows (c.append (W.flatMap Instruction.bytes)) := by
  refine ⟨fun ⟨insts, h⟩ => ⟨_, h.append hW⟩, ?_, ?_, by simp⟩
  · rintro s ⟨insts, h, op, d, hs⟩
    refine ⟨_, h.append hW, op, d, ?_⟩
    rw [Instruction.place_append]
    exact List.mem_append_left _ hs
  · rintro a ⟨insts, h, ha⟩
    refine ⟨_, h.append hW, ?_⟩
    rw [Instruction.place_append, List.map_append, List.mem_append]
    rcases ha with ha | rfl
    · exact .inl (.inl ha)
    · cases W with
      | nil => exact .inr (by simp)
      | cons w W => exact .inl (.inr (by simp [Instruction.place, h.size]))

theorem grows_setSlot {s t : Nat} (hs : c.BranchAt s) (hv : S24.Fits ((t : Int) - s - 4)) :
    c.Grows (c.setSlot (s + 1) ((t : Int) - s - 4)) := by
  obtain ⟨insts, h, op, d, hmem⟩ := hs
  obtain ⟨insts', h', hplace⟩ := h.land hmem hv
  refine ⟨fun _ => ⟨insts', h'⟩, ?_, ?_, by simp⟩
  · rintro s' ⟨insts₀, h₀, op', d', hs'⟩
    obtain rfl := h₀.unique h
    refine ⟨insts', h', ?_⟩
    rw [hplace]
    -- the branch at `s'` is still a branch there, landed or not
    by_cases heq : s' = s
    · subst heq
      exact ⟨op', Int32.ofInt ((t : Int) - s' - 4), List.mem_map.mpr
        ⟨_, hs', by simp [Instruction.land, Instruction.retarget]⟩⟩
    · exact ⟨op', d', List.mem_map.mpr ⟨_, hs', by simp [Instruction.land, heq]⟩⟩
  · rintro a ⟨insts₀, h₀, ha⟩
    obtain rfl := h₀.unique h
    refine ⟨insts', h', ?_⟩
    rw [hplace, List.map_map, Buffer.size_setSlot]
    have hfst : Prod.fst ∘ Instruction.land [s] t = Prod.fst := funext (Instruction.fst_land [s] t)
    rwa [hfst]

end Buffer

end AbcKit

namespace AbcKit.Emit

/-! ## Methods whose code is laid out -/

/-- the code of the method is laid out and every branch it leaves pending is a branch of it -/
structure MethodState.Laid (m : MethodState) : Prop where
  code : m.code.Laid
  pending : ∀ s ∈ m.pending, m.code.BranchAt s

/-- the method is laid out, and a branch starts at each of `S`: branches written and not yet
pending, or no longer pending and not yet landed -/
def MethodState.Ready (S : List Nat) (m : MethodState) : Prop :=
  m.Laid ∧ ∀ s ∈ S, m.code.BranchAt s

/-- `m'` keeps the layout of `m`'s code, its exception table, its try regions as far as their
ranges, states and catch handlers go, and its ordering option -/
structure MethodState.Grows (m m' : MethodState) : Prop where
  code : m.code.Grows m'.code
  exceptions : m'.exceptions = m.exceptions
  regions : List.Forall₂ HandlerBlock.SameRegion m.handlers m'.handlers
  strict : m'.strict = m.strict

namespace MethodState

variable {m m' m'' : MethodState} {S : List Nat}

theorem Grows.refl (m : MethodState) : m.Grows m :=
  ⟨.refl _, rfl, List.forall₂_same.mpr fun b _ => .refl b, rfl⟩

theorem Grows.trans (h : m.Grows m') (h' : m'.Grows m'') : m.Grows m'' :=
  ⟨h.code.trans h'.code, h'.exceptions.trans h.exceptions,
    HandlerBlock.SameRegion.forall₂_trans h.regions h'.regions, h'.strict.trans h.strict⟩

instance : IsPreorder MethodState Grows where
  refl := Grows.refl
  trans _ _ _ := Grows.trans

theorem Laid.grow (h : m.Laid) (hc : m.code.Grows m'.code) (hp : ∀ s ∈ m'.pending, s ∈ m.pending) :
    m'.Laid :=
  ⟨hc.laid h.code, fun s hs => hc.branch s (h.pending s (hp s hs))⟩

theorem Ready.grow (h : m.Ready S) (hc : m.code.Grows m'.code)
    (hp : ∀ s ∈ m'.pending, s ∈ m.pending) : m'.Ready S :=
  ⟨h.1.grow hc hp, fun s hs => hc.branch s (h.2 s hs)⟩

theorem SameJumps.grows (h : m.SameJumps m') : m.Grows m' :=
  ⟨h.code ▸ .refl _, h.exceptions, h.handlers ▸ List.forall₂_same.mpr fun b _ => .refl b, h.strict⟩

theorem SameJumps.ready (h : m.SameJumps m') (hr : m.Ready S) : m'.Ready S :=
  hr.grow h.grows.code fun s hs => by rwa [pending_eq_of_eq h.flow h.handlers] at hs

theorem Adds.grows (h : m.Adds m') : m.Grows m' := by
  obtain ⟨hs, -, hr, he, A, hA, hc, -⟩ := h
  exact ⟨hc ▸ Buffer.grows_append hA, he, hr, hs⟩

theorem Adds.ready (h : m.Adds m') (hr : m.Ready S) : m'.Ready S := by
  have hg := h.grows.code
  obtain ⟨-, -, -, -, A, hA, hc, N, hN, -, hmem⟩ := h
  obtain ⟨insts, hi⟩ := hr.1.code
  have h' : m'.code.Holds (insts ++ A) := hc ▸ hi.append hA
  refine ⟨⟨⟨_, h'⟩, fun s hs => ?_⟩, fun s hs => hg.branch s (hr.2 s hs)⟩
  rcases List.mem_append.mp (hN.subset hs) with hs | hs
  · exact hg.branch s (hr.1.pending s hs)
  · -- a branch the step added sits among the instructions it wrote
    obtain ⟨op, d, hplace⟩ := hmem s hs
    refine ⟨_, h', op, d, ?_⟩
    rw [Instruction.place_append, Nat.zero_add, ← hi.size]
    exact List.mem_append_right _ hplace

/-- a branch written after the code, behind instructions without jumps, starts where it was
written -/
theorem Emits.branchAt {op : BranchOp} {d : Int32} {site : Nat}
    (h : m.Emits (.branch op d) site m') (hl : m.code.Laid) : m'.code.BranchAt site := by
  obtain ⟨-, -, -, -, A, hA, hbr, rfl, hc⟩ := h
  obtain ⟨insts, hi⟩ := hl
  have hfits : ∀ i ∈ A ++ [.branch op d], i.Fits := by
    intro i hi
    rcases List.mem_append.mp hi with hi | hi
    · exact (hA i hi).1
    · rw [List.mem_singleton.mp hi]
      exact hbr
  refine ⟨insts ++ (A ++ [.branch op d]), hc ▸ hi.append hfits, op, d, ?_⟩
  rw [Instruction.place_append, Nat.zero_add, ← hi.size]
  exact List.mem_append_right _ (Instruction.mem_place_iff.mpr ⟨A, [], rfl, rfl⟩)

theorem Ready.sub {S' : List Nat} (h : m.Ready S) (hS : ∀ s ∈ S', s ∈ S) : m.Ready S' :=
  ⟨h.1, fun s hs => h.2 s (hS s hs)⟩

theorem Ready.add {T : List Nat} (h : m.Ready S) (hT : ∀ s ∈ T, s ∈ m.pending) :
    m.Ready (T ++ S) := by
  refine ⟨h.1, fun s hs => ?_⟩
  rcases List.mem_append.mp hs with hs | hs
  · exact h.1.pending s (hT s hs)
  · exact h.2 s hs

/-- the pending branches change without the code: each pending one was pending or tracked -/
theorem Ready.repend {S' : List Nat} (h : m.Ready S) (hc : m'.code = m.code)
    (hp : ∀ s ∈ m'.pending, s ∈ m.pending ∨ s ∈ S) (hS : ∀ s ∈ S', s ∈ m.pending ∨ s ∈ S) :
    m'.Ready S' := by
  have hat : ∀ s, s ∈ m.pending ∨ s ∈ S → m'.code.BranchAt s := fun s hs => by
    rw [hc]
    rcases hs with hs | hs
    · exact h.1.pending s hs
    · exact h.2 s hs
  exact ⟨⟨hc ▸ h.1.code, fun s hs => hat s (hp s hs)⟩, fun s hs => hat s (hS s hs)⟩

theorem grows_of_code {m' : MethodState} (hc : m'.code = m.code) (he : m'.exceptions = m.exceptions)
    (hh : m'.handlers = m.handlers) (hs : m'.strict = m.strict) : m.Grows m' :=
  ⟨hc ▸ .refl _, he, hh ▸ List.forall₂_same.mpr fun b _ => .refl b, hs⟩

end MethodState

namespace MethodM

variable {α : Type} {S : List Nat}

theorem Keeps.ready {act : MethodM α} (h : Keeps act) :
    OkTriple MethodState.Grows (MethodState.Ready S) act fun _ => MethodState.Ready S :=
  fun _ _ _ hr hact => ⟨(h.ok hact).grows, (h.ok hact).ready hr⟩

theorem patchHere_ready {site : Nat} (hs : site ∈ S) :
    OkTriple MethodState.Grows (MethodState.Ready S) (patchHere site)
      fun _ => MethodState.Ready S := by
  intro m u m' hr h
  obtain ⟨hv, rfl⟩ := patchHere_ok h
  have hg := Buffer.grows_setSlot (hr.2 site hs) hv
  exact ⟨⟨hg, rfl, List.forall₂_same.mpr fun b _ => .refl b, rfl⟩, hr.grow hg fun s hs => hs⟩

theorem forM_patchHere_ready {sites : List Nat} (hs : ∀ s ∈ sites, s ∈ S) :
    OkTriple MethodState.Grows (MethodState.Ready S) (sites.forM patchHere)
      fun _ => MethodState.Ready S :=
  OkTriple.forM sites fun s hmem => patchHere_ready (hs s hmem)

end MethodM

/-! ## On the emitter -/

/-- the innermost open method, if any, satisfies `P` -/
def Emitter.Inner (P : MethodState → Prop) (e : Emitter) : Prop := ∀ m ∈ e.methods.head?, P m

/-- the options are as they were and only the innermost method moved, keeping its layout,
exception table and try regions -/
structure Emitter.Grows (e e' : Emitter) : Prop where
  config : e'.config = e.config
  methods : Innermost MethodState.Grows e.methods e'.methods

instance : IsPreorder Emitter Emitter.Grows where
  refl _ := ⟨rfl, Innermost.refl _⟩
  trans _ _ _ h h' := ⟨h'.config.trans h.config, h.methods.trans h'.methods⟩

namespace Emitter

variable {α : Type} {S : List Nat} {P Q : MethodState → Prop} {e e' : Emitter}

theorem Inner.of_innermost {r : MethodState → MethodState → Prop}
    (h : Innermost r e.methods e'.methods) (hr : ∀ m m', r m m' → P m → Q m') (hp : Inner P e) :
    Inner Q e' := by
  unfold Inner at hp ⊢
  generalize e.methods = ms at h hp
  generalize e'.methods = ms' at h ⊢
  cases h with
  | none => exact fun m hm => by cases hm
  | head hmm =>
    intro m hm
    simp only [List.head?_cons, Option.mem_def, Option.some.injEq] at hm
    subst hm
    exact hr _ _ hmm (hp _ rfl)

theorem Inner.mono (h : ∀ m, P m → Q m) (hp : Inner P e) : Inner Q e :=
  fun m hm => h m (hp m hm)

theorem onMethod_okTriple {act : Pool → MethodM α} {Q' : α → MethodState → Prop}
    (h : ∀ pool, OkTriple MethodState.Grows P (act pool) Q') :
    OkTriple Emitter.Grows (Inner P) (onMethod act) fun x => Inner (Q' x) := by
  intro e x e' hp hact
  obtain ⟨m, rest, m', hm, hact', rfl⟩ := onMethod_ok hact
  obtain ⟨hg, hq⟩ := h _ m x m' (hp m (by simp [hm])) hact'
  refine ⟨⟨rfl, ?_⟩, fun m₁ hm₁ => ?_⟩
  · rw [hm]
    exact .head hg
  · simp only [List.head?_cons, Option.mem_def, Option.some.injEq] at hm₁
    exact hm₁ ▸ hq

/-- a step that only writes instructions and adds branches of them keeps the innermost method
ready -/
theorem okTriple_of_adds {act : EmitM α} (h : OnSuccess Emitter.Adds act) :
    OkTriple Emitter.Grows (Inner (MethodState.Ready S)) act fun _ => Inner (MethodState.Ready S) := by
  intro e x e' hr hact
  obtain ⟨hc, hm⟩ := h e x e' hact
  exact ⟨⟨hc, hm.mono fun _ _ h => h.grows⟩, hr.of_innermost hm fun _ _ ha hm => ha.ready hm⟩

theorem okTriple_of_writes {act : EmitM α} (h : OnSuccess Emitter.Writes act) :
    OkTriple Emitter.Grows (Inner (MethodState.Ready S)) act fun _ => Inner (MethodState.Ready S) :=
  okTriple_of_adds (h.mono fun _ _ h => h.adds)

theorem reserve_ready (op : BranchOp) :
    OkTriple Emitter.Grows (Inner (MethodState.Ready S)) (reserve op)
      fun site => Inner (MethodState.Ready (site :: S)) := by
  intro e site e' hr h
  rw [reserve_eq] at h
  obtain ⟨hc, m, rest, m', hm, hm', hemit⟩ := emit_emits h
  have hready : m.Ready S := hr m (by simp [hm])
  refine ⟨⟨hc, ?_⟩, fun m₁ hm₁ => ?_⟩
  · rw [hm, hm']
    exact .head hemit.adds.grows
  · rw [hm'] at hm₁
    simp only [List.head?_cons, Option.mem_def, Option.some.injEq] at hm₁
    subst hm₁
    refine ⟨(hemit.adds.ready hready).1, fun s hs => ?_⟩
    rcases List.mem_cons.mp hs with rfl | hs
    · exact hemit.branchAt hready.1.code
    · exact (hemit.adds.ready hready).2 s hs

theorem patchHere_ready {site : Nat} (hs : site ∈ S) :
    OkTriple Emitter.Grows (Inner (MethodState.Ready S)) (patchHere site)
      fun _ => Inner (MethodState.Ready S) :=
  onMethod_okTriple fun _ => MethodM.patchHere_ready hs

theorem label_ready : OkTriple Emitter.Grows (Inner (MethodState.Ready S)) label
    fun _ => Inner (MethodState.Ready S) :=
  okTriple_of_writes label_writes

end Emitter

end AbcKit.Emit
