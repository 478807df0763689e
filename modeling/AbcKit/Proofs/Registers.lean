import AbcKit.Proofs.Landing
import AbcKit.Proofs.Counters
import AbcKit.Proofs.MethodStack
import AbcKit.Proofs.TryRegions
/-!
Temporary registers, and the register count of a method body.

The registers below a method's `base` hold its receiver, parameters, arguments, declared locals
and temporaries; the allocator hands out temporaries from `base` up (`Registers.alloc`) and takes
back the one below `next` (`Registers.free`), answering whether the register given back was that
one. While temporaries go back in the reverse order of their allocation, the ones out are exactly
the registers from `base` up to `next` (`Registers.Lends`): a temporary handed out is never one
that is out, and a release is in order exactly when it gives back the last one out. Whatever the
order, every temporary is handed out at or above `base`.

The count `max` is raised by every allocation and by every instruction written, above the
registers the instruction names (`touch`). A method is `Covered` when its code is laid out, every
register its instructions name lies below the count, and the allocator keeps its bounds;
`KeepsCover` is what each step on a method does to that: the base stays, the count does not go
down, and a covered method stays covered. Writing an instruction, the bookkeeping steps,
allocating and releasing keep the cover outright; landing a branch keeps it when a branch starts
at the site landed (`MethodM.patchHere_keepsCover`).
-/
/-! ## The registers an instruction names -/

namespace AbcKit.Instruction

/-- the registers an instruction reads or writes: the short local forms name theirs, the local
family its operand, and `hasnext2` both of its own -/
def registerOperands : Instruction → List UInt32
  | .simple op => op.1.fixedRegister.toList
  | .register _ reg => [reg]
  | .hasNext2 object index => [object, index]
  | _ => []

@[simp] theorem maxRegister_retarget (v : Int) (i : Instruction) :
    (i.retarget v).maxRegister = i.maxRegister := by
  cases i <;> rfl

theorem le_maxRegister {i : Instruction} {r : UInt32} (h : r ∈ i.registerOperands) :
    ∃ top ∈ i.maxRegister, r.toNat ≤ top.toNat := by
  cases i with
  | simple op => exact ⟨r, by simpa [registerOperands, maxRegister] using h, le_rfl⟩
  | register op reg =>
    simp only [registerOperands, List.mem_singleton] at h
    exact ⟨reg, rfl, h ▸ le_rfl⟩
  | hasNext2 object index =>
    simp only [registerOperands, List.mem_cons, List.not_mem_nil, or_false] at h
    refine ⟨max object index, rfl, ?_⟩
    rw [UInt32.toNat_max]
    rcases h with rfl | rfl
    · exact le_max_left _ _
    · exact le_max_right _ _
  | _ => simp [registerOperands] at h

theorem maxRegister_lt {i : Instruction} (hi : i.Fits) {r : UInt32} (hr : r ∈ i.maxRegister) :
    r.toNat < 2 ^ 30 := by
  cases i with
  | simple op =>
    simp only [maxRegister, Opcode.fixedRegister] at hr
    split at hr <;> simp only [Option.mem_def, Option.some.injEq, reduceCtorEq] at hr <;>
      subst hr <;> decide
  | register op reg =>
    simp only [maxRegister, Option.mem_def, Option.some.injEq] at hr
    have hfit : VarInt.Fits reg.toNat := hi
    unfold VarInt.Fits VarInt.maxU30 at hfit
    rw [← hr]
    omega
  | hasNext2 object index =>
    simp only [maxRegister, Option.mem_def, Option.some.injEq] at hr
    subst hr
    obtain ⟨ho, hx⟩ : VarInt.Fits object.toNat ∧ VarInt.Fits index.toNat := hi
    unfold VarInt.Fits VarInt.maxU30 at ho hx
    rw [UInt32.toNat_max]
    omega
  | _ => cases hr

end AbcKit.Instruction

namespace AbcKit.Emit

/-! ## The allocator -/

namespace Registers

/-- the bounds an allocator keeps: temporaries from the base up, all below the count, and the
count a 32-bit word -/
structure Valid (r : Registers) : Prop where
  base : r.base ≤ r.next
  next : r.next ≤ r.max
  max : r.max < 2 ^ 32

/-- the temporaries out are `H`, oldest first: the registers from `base` up to `next`, as they are
while temporaries go back in the reverse order of their allocation -/
def Lends (H : List Nat) (r : Registers) : Prop := H = List.range' r.base (r.next - r.base)

variable {r r' : Registers} {x reg : Nat} {H : List Nat}

theorem start_valid {base : Nat} (h : base < 2 ^ 32) : (start base).Valid := ⟨le_rfl, le_rfl, h⟩

theorem start_lends (base : Nat) : (start base).Lends [] := by simp [Lends, start]

theorem alloc_ok (h : r.alloc = .ok (x, r')) :
    x = r.next ∧ r.next + 1 < 2 ^ 32 ∧
      r' = { r with next := r.next + 1, max := Nat.max r.max (r.next + 1) } := by
  unfold alloc checkUnsigned at h
  by_cases hn : r.next + 1 < Nat.pow 2 32
  · simp only [hn, ↓reduceIte] at h
    cases h
    exact ⟨rfl, hn, rfl⟩
  · simp only [hn, ↓reduceIte] at h
    cases h

/-- **A temporary is handed out at or above the base**, whatever was given back before. -/
theorem alloc_ge (hv : r.base ≤ r.next) (h : r.alloc = .ok (x, r')) : r.base ≤ x := by
  rw [(alloc_ok h).1]
  exact hv

theorem alloc_valid (hv : r.Valid) (h : r.alloc = .ok (x, r')) : r'.Valid := by
  obtain ⟨-, hn, rfl⟩ := alloc_ok h
  exact ⟨hv.base.trans (Nat.le_succ _), le_max_right _ _, max_lt hv.max hn⟩

theorem free_base (r : Registers) (reg : Nat) :
    (r.free reg).2.base = r.base ∧ (r.free reg).2.max = r.max := by
  unfold free
  split <;> exact ⟨rfl, rfl⟩

theorem free_valid (reg : Nat) (hv : r.Valid) : (r.free reg).2.Valid := by
  by_cases hin : r.next > r.base
  · simp only [free, hin, ↓reduceIte]
    exact ⟨by simp only; omega, by simp only; have := hv.next; omega, hv.max⟩
  · simpa [free, hin] using hv

theorem touch_base : (r.touch reg).base = r.base ∧ r.max ≤ (r.touch reg).max :=
  ⟨rfl, le_max_left _ _⟩

theorem touch_valid (hv : r.Valid) (hreg : reg + 1 < 2 ^ 32) : (r.touch reg).Valid :=
  ⟨hv.base, hv.next.trans (le_max_left _ _), max_lt hv.max hreg⟩

end Registers

/-! ## Methods whose count covers their code -/

/-- the method's code is laid out, every register its instructions name lies below its count, and
its allocator keeps its bounds -/
structure MethodState.Covered (m : MethodState) : Prop where
  code : m.code.Laid
  registers : m.registers.Valid
  named : ∀ insts, m.code.Holds insts → ∀ i ∈ insts, ∀ r ∈ i.maxRegister,
    r.toNat < m.registers.max

/-- `m'` keeps the base of `m`'s temporaries and does not lower its count, and it is covered if
`m` is -/
structure MethodState.KeepsCover (m m' : MethodState) : Prop where
  base : m'.registers.base = m.registers.base
  max : m.registers.max ≤ m'.registers.max
  covered : m.Covered → m'.Covered

namespace MethodState

variable {m m' : MethodState}

instance : IsPreorder MethodState KeepsCover where
  refl _ := ⟨rfl, le_rfl, id⟩
  trans _ _ _ h h' := ⟨h'.base.trans h.base, h.max.trans h'.max, h'.covered ∘ h.covered⟩

theorem KeepsCover.of_registers (hc : m'.code = m.code)
    (hb : m'.registers.base = m.registers.base) (hmax : m.registers.max ≤ m'.registers.max)
    (hv : m.registers.Valid → m'.registers.Valid) : m.KeepsCover m' := by
  refine ⟨hb, hmax, fun h => ⟨hc ▸ h.code, hv h.registers, fun insts hi i hmem r hr => ?_⟩⟩
  exact lt_of_lt_of_le (h.named insts (hc ▸ hi) i hmem r hr) hmax

theorem KeepsCover.of_eq (hc : m'.code = m.code) (hr : m'.registers = m.registers) :
    m.KeepsCover m' :=
  .of_registers hc (by rw [hr]) (by rw [hr]) fun h => hr ▸ h

/-- instructions written after covered code, naming registers below the new count, leave it
covered -/
theorem Covered.append (h : m.Covered) {W : List Instruction} (hW : ∀ i ∈ W, i.Fits)
    (hc : m'.code = m.code.append (W.flatMap Instruction.bytes)) (hv : m'.registers.Valid)
    (hmax : m.registers.max ≤ m'.registers.max)
    (hnamed : ∀ i ∈ W, ∀ r ∈ i.maxRegister, r.toNat < m'.registers.max) : m'.Covered := by
  obtain ⟨insts, hi⟩ := h.code
  have hall : m'.code.Holds (insts ++ W) := hc ▸ hi.append hW
  refine ⟨⟨_, hall⟩, hv, fun insts' hi' i hmem r hr => ?_⟩
  -- the code holds one list of instructions only: those before, then `W`
  rw [← hall.unique hi'] at hmem
  rcases List.mem_append.mp hmem with hmem | hmem
  · exact lt_of_lt_of_le (h.named insts hi i hmem r hr) hmax
  · exact hnamed i hmem r hr

/-- landing a branch of covered code leaves it covered: only the branch changes, and a branch
names no register -/
theorem Covered.land (h : m.Covered) {s t : Nat} (hs : m.code.BranchAt s)
    (hv : S24.Fits ((t : Int) - s - 4))
    (hc : m'.code = m.code.setSlot (s + 1) ((t : Int) - s - 4))
    (hr : m'.registers = m.registers) : m'.Covered := by
  obtain ⟨insts, hi, op, d, hmem⟩ := hs
  obtain ⟨insts', hi', hplace⟩ := hi.land hmem hv
  have hi₂ : m'.code.Holds insts' := hc ▸ hi'
  refine ⟨⟨insts', hi₂⟩, hr ▸ h.registers, fun insts'' hi'' i hmem' r hreg => ?_⟩
  rw [← hi₂.unique hi'', ← Instruction.map_snd_place 0 insts', hplace, List.map_map] at hmem'
  obtain ⟨p, hp, rfl⟩ := List.mem_map.mp hmem'
  have hpi : p.2 ∈ insts := by
    rw [← Instruction.map_snd_place 0 insts]
    exact List.mem_map_of_mem hp
  have hsame : (Instruction.land [s] t p).2.maxRegister = p.2.maxRegister := by
    unfold Instruction.land
    split <;> simp
  rw [Function.comp_apply, hsame] at hreg
  rw [hr]
  exact h.named insts hi p.2 hpi r hreg

end MethodState

namespace MethodM

variable {α : Type} {S : List Nat}

theorem modify_keepsCover {f : MethodState → MethodState} (hc : ∀ m, (f m).code = m.code)
    (hr : ∀ m, (f m).registers = m.registers) :
    OnSuccess MethodState.KeepsCover (modify f : MethodM PUnit) :=
  OnSuccess.modify fun m => .of_eq (hc m) (hr m)

/-- **Writing an instruction keeps the cover**: the count is raised above the registers it
names. -/
theorem emit_keepsCover (pool : Pool) (i : Instruction) :
    OnSuccess MethodState.KeepsCover (emit pool i) := by
  intro m site m' h
  obtain ⟨-, hfit, δ, -, rfl⟩ := emit_exact h
  have hcode : m.code.append i.bytes = m.code.append ([i].flatMap Instruction.bytes) := by simp
  cases hr : i.maxRegister with
  | none =>
    refine ⟨rfl, le_rfl, fun hc => ?_⟩
    refine hc.append (W := [i]) (by simp [hfit]) (by simp [hcode]) hc.registers le_rfl ?_
    intro j hj r hrj
    rw [List.mem_singleton.mp hj, hr] at hrj
    cases hrj
  | some top =>
    have htop : top.toNat + 1 < 2 ^ 32 := by
      have := Instruction.maxRegister_lt hfit (by rw [hr]; rfl)
      omega
    refine ⟨rfl, Registers.touch_base.2, fun hc => ?_⟩
    refine hc.append (W := [i]) (by simp [hfit]) (by simp [hcode])
      (Registers.touch_valid hc.registers htop) Registers.touch_base.2 ?_
    intro j hj r hrj
    rw [List.mem_singleton.mp hj, hr, Option.mem_def, Option.some.injEq] at hrj
    subst hrj
    exact lt_of_lt_of_le (Nat.lt_succ_self _) (le_max_right _ _)

theorem violation_keepsCover (msg : String) : OnSuccess MethodState.KeepsCover (violation msg) :=
  fun _ _ _ h => (violation_ok h) ▸ refl_of MethodState.KeepsCover _

theorem adjustStack_keepsCover (delta : Int) :
    OnSuccess MethodState.KeepsCover (adjustStack delta) :=
  fun _ _ _ h => by
    rw [adjustStack_exact h]
    exact .of_eq rfl rfl

theorem setStack_keepsCover (n : Nat) : OnSuccess MethodState.KeepsCover (setStack n) :=
  modify_keepsCover (fun _ => rfl) fun _ => rfl

theorem restore_keepsCover (s : Snapshot) : OnSuccess MethodState.KeepsCover (restore s) :=
  modify_keepsCover (fun _ => rfl) fun _ => rfl

theorem snapshot_keepsCover : OnSuccess MethodState.KeepsCover snapshot :=
  OnSuccess.get.bind fun _ => OnSuccess.pure _

theorem pushDepth_keepsCover : OnSuccess MethodState.KeepsCover pushDepth :=
  modify_keepsCover (fun _ => rfl) fun _ => rfl

theorem popDepth_keepsCover : OnSuccess MethodState.KeepsCover popDepth := by
  unfold popDepth
  refine OnSuccess.get.bind fun m => ?_
  split
  · exact modify_keepsCover (fun _ => rfl) fun _ => rfl
  · exact violation_keepsCover _

theorem allocTemp_ok {m m' : MethodState} {x : UInt32} (h : allocTemp m = .ok x m') :
    ∃ r, m.registers.alloc = .ok (x.toNat, r) ∧ m' = { m with registers := r } := by
  unfold allocTemp at h
  obtain ⟨_, _, ⟨⟩, h⟩ := EStateM.bind_eq_ok.mp h
  rcases hr : m.registers.alloc with o | ⟨n, r⟩
  · rw [hr] at h
    cases h
  · rw [hr] at h
    obtain ⟨_, _, ⟨⟩, h⟩ := EStateM.bind_eq_ok.mp h
    cases h
    obtain ⟨hn₁, hn, -⟩ := Registers.alloc_ok hr
    have hx : n.toUInt32.toNat = n := toNat_toUInt32_of_lt (by omega)
    exact ⟨r, by rw [hx], rfl⟩

theorem allocTemp_keepsCover : OnSuccess MethodState.KeepsCover allocTemp := by
  intro m x m' h
  obtain ⟨r, hr, rfl⟩ := allocTemp_ok h
  obtain ⟨-, -, rfl⟩ := Registers.alloc_ok hr
  exact .of_registers rfl rfl (le_max_left _ _) fun hv => Registers.alloc_valid hv hr

/-- what a successful release does to the method: only its allocator moves, and under strict
ordering the release was in order -/
theorem freeTemp_ok {m m' : MethodState} {reg : UInt32} (h : freeTemp reg m = .ok () m') :
    m' = { m with registers := (m.registers.free reg.toNat).2 } ∧
      (m.strict = true → (m.registers.free reg.toNat).1 = true) := by
  unfold freeTemp at h
  obtain ⟨_, _, ⟨⟩, h⟩ := EStateM.bind_eq_ok.mp h
  obtain ⟨_, m₁, ⟨⟩, h⟩ := EStateM.bind_eq_ok.mp h
  split at h
  · next hin =>
    cases h
    exact ⟨rfl, fun _ => by simpa [Registers.free] using hin⟩
  · next hout =>
    refine ⟨violation_ok h, fun hs => ?_⟩
    exact (violation_strict (by simpa using hs) h).elim

theorem freeTemp_keepsCover (reg : UInt32) : OnSuccess MethodState.KeepsCover (freeTemp reg) := by
  intro m x m' h
  rw [(freeTemp_ok h).1]
  obtain ⟨hb, hmax⟩ := Registers.free_base m.registers reg.toNat
  exact .of_registers rfl hb hmax.ge (Registers.free_valid reg.toNat)

/-- **Landing a tracked branch keeps the cover**: a branch starts at the site landed. -/
theorem patchHere_keepsCover {site : Nat} (hs : site ∈ S) :
    OkTriple MethodState.KeepsCover (MethodState.Ready S) (patchHere site)
      fun _ => MethodState.Ready S := by
  intro m u m' hr h
  have hready := ((patchHere_ready hs) m u m' hr h).2
  obtain ⟨hv, rfl⟩ := patchHere_ok h
  exact ⟨⟨rfl, le_rfl, fun hc => hc.land (hr.2 site hs) hv rfl rfl⟩, hready⟩

theorem forM_patchHere_keepsCover {sites : List Nat} (hs : ∀ s ∈ sites, s ∈ S) :
    OkTriple MethodState.KeepsCover (MethodState.Ready S) (sites.forM patchHere)
      fun _ => MethodState.Ready S :=
  OkTriple.forM sites fun s hmem => patchHere_keepsCover (hs s hmem)

end MethodM

end AbcKit.Emit
