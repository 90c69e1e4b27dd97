import ChipEight.Machine.Effects

/-! A ROM in memory. -/

set_option autoImplicit false

namespace ChipEight

/-- The bytes a ROM occupies. -/
def InRom (rom : List Byte) (a : Nat) : Prop :=
  entrypoint.toNat ≤ a ∧ a < entrypoint.toNat + rom.length

instance (rom : List Byte) (a : Nat) : Decidable (InRom rom a) :=
  inferInstanceAs (Decidable (_ ∧ _))

/-- ROM bytes that are still in memory. -/
def Intact (rom : List Byte) (memory : Memory) : Prop :=
  ∀ a : Addr, InRom rom a.toNat → memory a = loadRom rom a

theorem intact_boot (rom : List Byte) : Intact rom (loadRom rom) := fun _ _ => rfl

theorem mask_toNat {rom : List Byte} (fits : rom.length ≤ 3584) {pc : Word}
    (inside : InRom rom pc.toNat) : (mask pc).toNat = pc.toNat := by
  obtain ⟨-, high⟩ := inside
  have base : entrypoint.toNat = 512 := rfl
  rw [mask, BitVec.toNat_setWidth]
  omega

theorem next_toNat {rom : List Byte} (fits : rom.length ≤ 3584) {pc : Word}
    (inside : InRom rom pc.toNat) : (pc + 1).toNat = pc.toNat + 1 := by
  obtain ⟨-, high⟩ := inside
  have base : entrypoint.toNat = 512 := rfl
  show (pc.toNat + 1) % 2 ^ 16 = pc.toNat + 1
  omega

theorem Intact.opcode {rom : List Byte} {memory : Memory} (intact : Intact rom memory)
    (fits : rom.length ≤ 3584) {pc : Word} (first : InRom rom pc.toNat)
    (second : InRom rom (pc.toNat + 1)) :
    opcodeAt memory pc = opcodeAt (loadRom rom) pc := by
  have next := next_toNat fits first
  have there : InRom rom (pc + 1).toNat := next ▸ second
  unfold opcodeAt
  rw [intact (mask pc) ((mask_toNat fits first).symm ▸ first),
    intact (mask (pc + 1)) ((mask_toNat fits there).symm ▸ there)]

theorem Intact.exec {E : Type} {P : Platform E} {rom : List Byte} {s s' : State E} {i : Insn}
    {op : Word} {r : BitVec 32} (intact : Intact rom s.vm.memory)
    (outside : ∀ a ∈ i.written s.vm.addr, ¬ InRom rom a.toNat)
    (executed : i.exec P op s = (r, s')) : Intact rom s'.vm.memory := by
  intro a inside
  have away : a ∉ i.written s.vm.addr := fun written => outside a written inside
  have kept := exec_memory P op i s away
  rw [executed] at kept
  rw [← intact a inside]
  exact kept

end ChipEight
