import AbcKit.Emit.Call
import AbcKit.Proofs.Code
import AbcKit.Proofs.Slots
/-!
A method body while it is written: a buffer that holds instructions one after another, into
which branches are reserved and later landed.

`Buffer.Holds code insts`: the bytes of `code` are those of `insts`, each with fitting operands,
so the body reads back as `Instruction.place 0 insts` (`Buffer.Holds.decode`). Writing an
instruction extends the list (`Buffer.Holds.append`). Landing the branch at offset `s` on `t`
overwrites its three displacement bytes, which changes that one instruction in the layout and
nothing else (`Buffer.Holds.land`), and the landed branch then goes to `t` (`targets_land`).

The second part reads the steps on one method (`MethodM`) that write or land: what a successful
`emit`, `patch` or `patchHere` leaves, and that the bookkeeping steps leave the code and the
pending jumps alone (`MethodState.SameJumps`).
-/
namespace AbcKit

/-! ## A buffer of instructions -/

/-- `code` is the instructions `insts` written one after another, every operand fitting -/
structure Buffer.Holds (code : Buffer) (insts : List Instruction) : Prop where
  fits : ∀ i ∈ insts, i.Fits
  bytes : code.toList = insts.flatMap Instruction.bytes

namespace Buffer.Holds

variable {code : Buffer} {insts : List Instruction}

theorem empty : ({} : Buffer).Holds [] := ⟨by simp, rfl⟩

theorem append (h : code.Holds insts) {W : List Instruction} (hW : ∀ i ∈ W, i.Fits) :
    (code.append (W.flatMap Instruction.bytes)).Holds (insts ++ W) where
  fits := by
    intro i hi
    rcases List.mem_append.mp hi with hi | hi
    · exact h.fits i hi
    · exact hW i hi
  bytes := by simp [h.bytes]

theorem size (h : code.Holds insts) : code.size = (insts.flatMap Instruction.bytes).length := by
  rw [← h.bytes]
  simp [Buffer.size, Buffer.toList]

theorem decode (h : code.Holds insts) : Code.decode code.toList = .ok (Instruction.place 0 insts) := by
  rw [h.bytes]
  exact Code.decode_place insts h.fits

end Buffer.Holds

/-! ## Where instructions are -/

namespace Instruction

/-- an instruction is at `s` when the ones before it take `s` bytes -/
theorem mem_place_iff {s pos : Nat} {i : Instruction} {insts : List Instruction} :
    (s, i) ∈ place pos insts ↔
      ∃ A B, insts = A ++ i :: B ∧ s = pos + (A.flatMap bytes).length := by
  induction insts generalizing pos with
  | nil => simp [place]
  | cons j js ih =>
    simp only [place, List.mem_cons, Prod.mk.injEq, ih]
    constructor
    · rintro (⟨rfl, rfl⟩ | ⟨A, B, rfl, rfl⟩)
      · exact ⟨[], js, rfl, by simp⟩
      · exact ⟨j :: A, B, rfl, by simp [Nat.add_assoc]⟩
    · rintro ⟨A, B, hjs, rfl⟩
      cases A with
      | nil =>
        obtain ⟨rfl, rfl⟩ := List.cons.inj hjs
        exact .inl ⟨by simp, rfl⟩
      | cons a A =>
        obtain ⟨rfl, rfl⟩ := List.cons.inj hjs
        exact .inr ⟨A, B, rfl, by simp [Nat.add_assoc]⟩

theorem offset_lt_of_mem_place {s pos : Nat} {i : Instruction} {insts : List Instruction}
    (hfits : ∀ j ∈ insts, j.Fits) (h : (s, i) ∈ place pos insts) :
    pos ≤ s ∧ s < pos + (insts.flatMap bytes).length := by
  obtain ⟨A, B, rfl, rfl⟩ := mem_place_iff.mp h
  have hi := List.length_pos_iff.mpr (bytes_ne_nil (hfits i (by simp)))
  simp only [List.flatMap_append, List.flatMap_cons, List.length_append]
  omega

/-- the instruction with its displacement set to `v`, when it is a branch -/
def retarget (v : Int) : Instruction → Instruction
  | .branch op _ => .branch op (Int32.ofInt v)
  | i => i

/-- the instruction `p`, pointed at `t` when it is a branch at one of the offsets `ss` -/
def land (ss : List Nat) (t : Nat) (p : Nat × Instruction) : Nat × Instruction :=
  if p.1 ∈ ss then (p.1, p.2.retarget ((t : Int) - p.1 - 4)) else p

theorem map_land_of_not_mem {ss : List Nat} {t : Nat} {D : List (Nat × Instruction)}
    (h : ∀ p ∈ D, p.1 ∉ ss) : D.map (land ss t) = D := by
  conv => rhs; rw [← List.map_id D]
  exact List.map_congr_left fun p hp => if_neg (h p hp)

theorem land_land {ss ss' : List Nat} {t : Nat} (p : Nat × Instruction) :
    land ss' t (land ss t p) = land (ss ++ ss') t p := by
  obtain ⟨o, i⟩ := p
  by_cases hs : o ∈ ss <;> by_cases hs' : o ∈ ss' <;> cases i <;> simp_all [land, retarget]

@[simp] theorem land_nil (t : Nat) : land [] t = id := funext fun p => by simp [land]

theorem toInt_ofInt_of_fits {v : Int} (h : S24.Fits v) : (Int32.ofInt v).toInt = v := by
  obtain ⟨hlo, hhi⟩ := h
  simp only [S24.min, S24.max] at hlo hhi
  rw [Int32.toInt_ofInt, Int.bmod_eq_of_le] <;> simp [Int32.size] <;> omega

theorem targets_branch {op : BranchOp} {s t : Nat} (h : S24.Fits ((t : Int) - s - 4)) :
    (branch op (Int32.ofInt ((t : Int) - s - 4))).targets s = [(t : Int)] := by
  simp only [targets, toInt_ofInt_of_fits h, List.cons.injEq, and_true]
  omega

end Instruction

theorem List.set_slot {P Q : List UInt8} {b x y z x' y' z' : UInt8} :
    ((((P ++ b :: x :: y :: z :: Q).set (P.length + 1) x').set (P.length + 2) y').set
      (P.length + 3) z') = P ++ b :: x' :: y' :: z' :: Q := by
  simp [List.set_append_right]

theorem Buffer.Holds.land {code : Buffer} {insts : List Instruction} (h : code.Holds insts)
    {s t : Nat} {op : BranchOp} {d : Int32} (hs : (s, .branch op d) ∈ Instruction.place 0 insts)
    (hv : S24.Fits ((t : Int) - s - 4)) :
    ∃ insts', (code.setSlot (s + 1) ((t : Int) - s - 4)).Holds insts' ∧
      Instruction.place 0 insts' = (Instruction.place 0 insts).map (Instruction.land [s] t) := by
  obtain ⟨A, B, rfl, hA⟩ := Instruction.mem_place_iff.mp hs
  rw [Nat.zero_add] at hA
  subst hA
  set v : Int := (t : Int) - (A.flatMap Instruction.bytes).length - 4 with hv_def
  have hd : S24.Fits d.toInt := h.fits (.branch op d) (by simp)
  have hfits' : S24.Fits (Int32.ofInt v).toInt := by
    rw [Instruction.toInt_ofInt_of_fits hv]
    exact hv
  refine ⟨A ++ .branch op (Int32.ofInt v) :: B, ⟨?_, ?_⟩, ?_⟩
  · intro i hi
    simp only [List.mem_append, List.mem_cons] at hi
    rcases hi with hi | rfl | hi
    · exact h.fits i (by simp [hi])
    · exact hfits'
    · exact h.fits i (by simp [hi])
  · have hcode := h.bytes
    simp only [List.flatMap_append, List.flatMap_cons, Instruction.bytes_branch hd,
      Instruction.bytes_branch hfits', Instruction.toInt_ofInt_of_fits hv] at hcode ⊢
    simp only [Buffer.setSlot, Buffer.toList, Array.toList_setIfInBounds] at hcode ⊢
    rw [hcode]
    simp only [S24.encode, List.cons_append, List.nil_append]
    exact List.set_slot
  · -- the layouts before and after the branch keep their offsets, all away from `s`
    have hlen : (Instruction.branch op (Int32.ofInt v)).bytes.length =
        (Instruction.branch op d).bytes.length := by
      rw [Instruction.bytes_branch hfits', Instruction.bytes_branch hd]
      simp [S24.encode]
    have hA : ∀ j ∈ A, j.Fits := fun j hj => h.fits j (by simp [hj])
    have hB : ∀ j ∈ B, j.Fits := fun j hj => h.fits j (by simp [hj])
    have hbr := List.length_pos_iff.mpr (Instruction.bytes_ne_nil (i := .branch op d) hd)
    simp only [Instruction.place_append, Instruction.place, List.map_append, List.map_cons,
      Nat.zero_add, hlen]
    rw [Instruction.map_land_of_not_mem fun p hp => ?_, Instruction.map_land_of_not_mem fun p hp => ?_]
    · simp [Instruction.land, Instruction.retarget, hv_def]
    · have := (Instruction.offset_lt_of_mem_place hB hp).1
      simp only [List.mem_singleton]
      omega
    · have := (Instruction.offset_lt_of_mem_place hA hp).2
      simp only [List.mem_singleton]
      omega

/-- landing several branches on one address, one after another -/
theorem Buffer.Holds.landAll {t : Nat} :
    ∀ (sites : List Nat) {code : Buffer} {insts : List Instruction}, code.Holds insts →
      (∀ s ∈ sites, (∃ op d, (s, .branch op d) ∈ Instruction.place 0 insts) ∧
        S24.Fits ((t : Int) - s - 4)) →
      ∃ insts', (sites.foldl (fun c s => c.setSlot (s + 1) ((t : Int) - s - 4)) code).Holds insts' ∧
        Instruction.place 0 insts' = (Instruction.place 0 insts).map (Instruction.land sites t)
  | [], _, insts, h, _ => ⟨insts, h, by simp⟩
  | s :: rest, _, insts, h, hs => by
    obtain ⟨⟨op, d, hmem⟩, hv⟩ := hs s List.mem_cons_self
    obtain ⟨insts₁, h₁, hplace₁⟩ := h.land hmem hv
    -- the branches still to land are branches of the layout after the first landing
    have hrest : ∀ s' ∈ rest, (∃ op d, (s', .branch op d) ∈ Instruction.place 0 insts₁) ∧
        S24.Fits ((t : Int) - s' - 4) := by
      intro s' hs'
      obtain ⟨⟨op', d', hmem'⟩, hv'⟩ := hs s' (List.mem_cons_of_mem s hs')
      refine ⟨?_, hv'⟩
      rw [hplace₁]
      by_cases heq : s' = s
      · subst heq
        exact ⟨op', Int32.ofInt ((t : Int) - s' - 4), List.mem_map.mpr
          ⟨_, hmem', by simp [Instruction.land, Instruction.retarget]⟩⟩
      · exact ⟨op', d', List.mem_map.mpr ⟨_, hmem', by simp [Instruction.land, heq]⟩⟩
    obtain ⟨insts₂, h₂, hplace₂⟩ := Buffer.Holds.landAll rest h₁ hrest
    refine ⟨insts₂, h₂, ?_⟩
    rw [hplace₂, hplace₁, List.map_map]
    exact List.map_congr_left fun p _ => Instruction.land_land p

end AbcKit

namespace AbcKit.Emit

/-! ## Steps on one method -/

/-- the same code, the same pending jumps, the same exception table and the same ordering option:
what a bookkeeping step leaves -/
structure MethodState.SameJumps (m m' : MethodState) : Prop where
  code : m'.code = m.code
  flow : m'.flow = m.flow
  handlers : m'.handlers = m.handlers
  exceptions : m'.exceptions = m.exceptions
  strict : m'.strict = m.strict

instance : IsPreorder MethodState MethodState.SameJumps where
  refl _ := ⟨rfl, rfl, rfl, rfl, rfl⟩
  trans _ _ _ h h' :=
    ⟨h'.code.trans h.code, h'.flow.trans h.flow, h'.handlers.trans h.handlers,
      h'.exceptions.trans h.exceptions, h'.strict.trans h.strict⟩

namespace MethodM

/-- a step that leaves the code and the pending jumps alone, whether it succeeds or fails -/
def Keeps {α : Type} (act : MethodM α) : Prop :=
  Triple MethodState.SameJumps (fun _ => True) act fun _ _ => True

namespace Keeps

variable {α β : Type}

theorem pure (x : α) : Keeps (Pure.pure x : MethodM α) := Triple.pure fun _ _ => trivial

theorem bind {x : MethodM α} {f : α → MethodM β} (hx : Keeps x) (hf : ∀ a, Keeps (f a)) :
    Keeps (x >>= f) := Triple.bind hx hf

theorem get : Keeps (MonadState.get : MethodM MethodState) :=
  Triple.get.consequence (fun _ h => h) fun _ _ _ => trivial

theorem throw (h : Halt) : Keeps (throw h : MethodM α) := Triple.throw

theorem modify {f : MethodState → MethodState} (h : ∀ m : MethodState, m.SameJumps (f m)) :
    Keeps (modify f : MethodM PUnit) := Triple.modify fun m _ => ⟨h m, trivial⟩

theorem discard {x : MethodM α} (hx : Keeps x) : Keeps (Functor.discard x) :=
  Triple.discard (hx.consequence (fun _ h => h) fun _ _ _ => trivial)

theorem ok {act : MethodM α} (h : Keeps act) {m m' : MethodState} {x : α}
    (hact : act m = .ok x m') : m.SameJumps m' := (h.ok_of trivial hact).1

end Keeps

theorem violation_keeps (msg : String) : Keeps (violation msg) := by
  unfold violation
  refine Keeps.get.bind fun m => ?_
  split
  · exact Keeps.throw _
  · exact Keeps.pure _

theorem violation_strict {msg : String} {m m' : MethodState} {x : Unit} (hs : m.strict = true)
    (h : violation msg m = .ok x m') : False := by
  simp [violation, hs, bind, EStateM.bind, get, getThe, MonadStateOf.get, EStateM.get,
    MonadExcept.throw, throwThe, MonadExceptOf.throw, EStateM.throw] at h

theorem adjustStack_keeps (delta : Int) : Keeps (adjustStack delta) := by
  unfold adjustStack
  refine Keeps.get.bind fun m => ?_
  split
  apply Keeps.bind (Keeps.modify fun _ => by exact ⟨rfl, rfl, rfl, rfl, rfl⟩)
  intro _
  split
  · exact Keeps.pure _
  · exact violation_keeps _

theorem setStack_keeps (n : Nat) : Keeps (setStack n) :=
  Keeps.modify fun _ => by exact ⟨rfl, rfl, rfl, rfl, rfl⟩

theorem restore_keeps (s : Snapshot) : Keeps (restore s) :=
  Keeps.modify fun _ => by exact ⟨rfl, rfl, rfl, rfl, rfl⟩

theorem allocTemp_keeps : Keeps allocTemp := by
  unfold allocTemp
  refine Keeps.get.bind fun m => ?_
  split
  · exact Keeps.bind (Keeps.modify fun _ => by exact ⟨rfl, rfl, rfl, rfl, rfl⟩) fun _ => Keeps.pure _
  · exact Keeps.throw _

theorem freeTemp_keeps (reg : UInt32) : Keeps (freeTemp reg) := by
  unfold freeTemp
  refine Keeps.get.bind fun m => ?_
  split
  apply Keeps.bind (Keeps.modify fun _ => by exact ⟨rfl, rfl, rfl, rfl, rfl⟩)
  intro _
  split
  · exact Keeps.pure _
  · exact violation_keeps _

/-- a successful write appends the instruction, at the old end of the code -/
theorem emit_ok {pool : Pool} {i : Instruction} {m m' : MethodState} {site : Nat}
    (h : emit pool i m = .ok site m') :
    site = m.code.size ∧ i.Fits ∧ m'.code = m.code.append i.bytes ∧ m'.flow = m.flow ∧
      m'.handlers = m.handlers ∧ m'.exceptions = m.exceptions ∧ m'.strict = m.strict := by
  unfold emit at h
  obtain ⟨_, _, ⟨⟩, h⟩ := EStateM.bind_eq_ok.mp h
  dsimp only at h
  cases hw : i.encode m.code with
  | error err b =>
    simp only [Encoder.exec, hw] at h
    obtain ⟨_, _, ⟨⟩, h⟩ := EStateM.bind_eq_ok.mp h
    cases h
  | ok _ b =>
    simp only [Encoder.exec, hw] at h
    obtain ⟨_, m₁, ⟨⟩, h⟩ := EStateM.bind_eq_ok.mp h
    obtain ⟨hsame, hsite⟩ := Triple.ok_of (P := fun _ => True) (Q := fun x _ => x = m.code.size)
      (R := MethodState.SameJumps) (by
        repeat' first
          | exact Triple.pure fun _ _ => rfl
          | exact Keeps.pure _
          | exact Keeps.throw _
          | exact Keeps.get
          | exact violation_keeps _
          | exact Keeps.modify fun _ => by exact ⟨rfl, rfl, rfl, rfl, rfl⟩
          | apply Triple.bind (M := fun _ _ => True)
          | split
          | (intro _)) trivial h
    exact ⟨hsite, Instruction.fits_of_encode hw, hsame.code.trans (Instruction.encode_eq_ok hw),
      hsame.flow, hsame.handlers, hsame.exceptions, hsame.strict⟩

theorem patch_ok {site target : Nat} {m m' : MethodState} (h : patch site target m = .ok () m') :
    S24.Fits ((target : Int) - site - 4) ∧
      m' = { m with code := m.code.setSlot (site + 1) ((target : Int) - site - 4) } := by
  unfold patch displacement at h
  split at h
  · next hv =>
    obtain ⟨_, _, ⟨⟩, h⟩ := EStateM.bind_eq_ok.mp h
    obtain ⟨_, _, ⟨⟩, h⟩ := EStateM.bind_eq_ok.mp h
    simp only [Instruction.toInt_ofInt_of_fits hv, Buffer.patchS24, hv, not_true_eq_false,
      ↓reduceIte] at h
    by_cases hover : Buffer.SlotOverflows (site + 1)
    · simp only [hover, ↓reduceIte] at h
      cases h
    by_cases hin : site + 1 + 3 ≤ m.code.size
    · simp only [hover, hin, ↓reduceIte] at h
      cases h
      exact ⟨hv, rfl⟩
    · simp only [hover, hin, ↓reduceIte] at h
      cases h
  · obtain ⟨_, _, ⟨⟩, _⟩ := EStateM.bind_eq_ok.mp h

theorem patchHere_ok {site : Nat} {m m' : MethodState} (h : patchHere site m = .ok () m') :
    S24.Fits ((m.code.size : Int) - site - 4) ∧
      m' = { m with code := m.code.setSlot (site + 1) ((m.code.size : Int) - site - 4) } := by
  obtain ⟨_, _, ⟨⟩, h⟩ := EStateM.bind_eq_ok.mp h
  exact patch_ok h

/-- landing a list of branches on the current address, one after another -/
theorem forM_patchHere_ok {sites : List Nat} {m m' : MethodState}
    (h : sites.forM patchHere m = .ok () m') :
    (∀ s ∈ sites, S24.Fits ((m.code.size : Int) - s - 4)) ∧
      m' = { m with
        code := (sites.foldl (fun c s => c.setSlot (s + 1) ((m.code.size : Int) - s - 4)) m.code) } := by
  induction sites generalizing m with
  | nil =>
    cases h
    exact ⟨by simp, rfl⟩
  | cons s rest ih =>
    simp only [List.forM] at h
    obtain ⟨_, m₁, h₁, h⟩ := EStateM.bind_eq_ok.mp h
    obtain ⟨hv, rfl⟩ := patchHere_ok h₁
    -- landing keeps the size, so the rest lands on the same address
    obtain ⟨hrest, rfl⟩ := ih h
    simp only [Buffer.size_setSlot] at hrest ⊢
    exact ⟨List.forall_mem_cons.mpr ⟨hv, hrest⟩, rfl⟩

end MethodM

end AbcKit.Emit
