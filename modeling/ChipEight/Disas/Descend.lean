import ChipEight.Library.Run
import ChipEight.Machine.State

/-! The static analyses of disas.c.

The arrays `leader`, `reach` and `class` are functions of the address. `descend` runs
its two loops as one machine: between blocks it takes an address off the stack, inside a
block it walks from word to word.
-/

set_option autoImplicit false

namespace ChipEight.Disas

/-- The values of `class`. -/
inductive Kind where
  | unknown
  | code
  | data
  deriving DecidableEq, Repr

/-- What `analyze`, `descend` and `glue_unreachable` compute. -/
structure Map where
  leader : Nat → Bool
  reach : Nat → Bool
  kind : Nat → Kind
  smcPossible : Bool
  indirectJumpSeen : Bool

def Map.empty : Map := ⟨fun _ => false, fun _ => false, fun _ => .unknown, false, false⟩

/-- The first address behind the ROM. -/
def endOf (size : Nat) : Nat := entrypoint.toNat + size

/-- The ROM in the otherwise clear `memory`. -/
def byteAt (rom : List Byte) (a : Nat) : Byte :=
  if a < entrypoint.toNat then 0#8 else rom.getD (a - entrypoint.toNat) 0#8

def wordAt (rom : List Byte) (pc : Nat) : Word :=
  (byteAt rom pc).setWidth 16 <<< 8 ||| (byteAt rom (pc + 1)).setWidth 16

/-- The addresses `a` of `for (a = lo; a < hi; ++a)`. -/
def upTo (lo hi : Nat) : List Nat := List.range' lo (hi - lo)

/-- The addresses of `for (pc = ENTRYPOINT; pc + 1 < end; pc += 2)`. -/
def wordAddresses (size : Nat) : List Nat :=
  (List.range (size / 2)).map fun i => entrypoint.toNat + 2 * i

def validOpcode (op : Word) : Bool :=
  if op == 0x00e0#16 || op == 0x00ee#16 then true
  else match opClass op with
    | 0x0 => false
    | 0x5 => opLow4 op == 0
    | 0x9 => opLow4 op == 0
    | 0x8 => opLow4 op ≤ 7 || opLow4 op == 0xe
    | 0xe => opLow8 op == 0x9e || opLow8 op == 0xa1
    | 0xf => match opLow8 op with
      | 0x07 => true
      | 0x0a => true
      | 0x15 => true
      | 0x18 => true
      | 0x1e => true
      | 0x29 => true
      | 0x33 => true
      | 0x55 => true
      | 0x65 => true
      | _ => false
    | _ => true

def labelable (addr size : Nat) : Bool :=
  entrypoint.toNat ≤ addr && addr + 1 < endOf size && addr % 2 == 0

def nnnOf (op : Word) : Nat := (immediate12 op).toNat

/-! ## Leaders -/

def Map.setLeader (m : Map) (a : Nat) (b : Bool) : Map :=
  { m with leader := Function.update m.leader a b }

def Map.leaderIf (m : Map) (condition : Bool) (a : Nat) : Map :=
  if condition then m.setLeader a true else m

def isSkip (op : Word) : Bool :=
  match opClass op with
  | 0x3 => true
  | 0x4 => true
  | 0x5 => opLow4 op == 0
  | 0x9 => opLow4 op == 0
  | 0xe => opLow8 op == 0x9e || opLow8 op == 0xa1
  | _ => false

def endsBlock (op : Word) : Bool :=
  match opClass op with
  | 0x0 => op == 0x00ee#16
  | 0x1 => true
  | 0xb => true
  | _ => false

/-- Classes 1 and 2, whose operand is a leader. -/
def namesTarget (op : Word) : Bool := opClass op == 1 || opClass op == 2

/-- The body of the loop of `analyze`. -/
def analyzeWord (rom : List Byte) (m : Map) (pc : Nat) : Map :=
  let op := wordAt rom pc
  let size := rom.length
  let m := m.leaderIf (namesTarget op && labelable (nnnOf op) size) (nnnOf op)
  let m := m.leaderIf (isSkip op && pc + 2 < endOf size) (pc + 2)
  let m := m.leaderIf (isSkip op && pc + 4 < endOf size) (pc + 4)
  m.leaderIf (endsBlock op && pc + 2 < endOf size) (pc + 2)

def analyze (rom : List Byte) (m : Map) : Map :=
  (wordAddresses rom.length).foldl (analyzeWord rom) (m.setLeader entrypoint.toNat true)

theorem leaderIf_only (m : Map) (condition : Bool) (a : Nat) :
    ∃ l, m.leaderIf condition a = { m with leader := l } := by
  unfold Map.leaderIf
  split
  · exact ⟨_, rfl⟩
  · exact ⟨m.leader, rfl⟩

theorem analyze_only (rom : List Byte) (m : Map) :
    ∃ l, analyze rom m = { m with leader := l } := by
  have later {m' : Map} (before : ∃ l, m' = { m with leader := l }) (condition : Bool) (a : Nat) :
      ∃ l, m'.leaderIf condition a = { m with leader := l } := by
    obtain ⟨l, rfl⟩ := before
    exact leaderIf_only _ condition a
  have first : ∃ l, m.setLeader entrypoint.toNat true = { m with leader := l } := ⟨_, rfl⟩
  unfold analyze
  generalize wordAddresses rom.length = pcs
  generalize m.setLeader entrypoint.toNat true = m' at first
  induction pcs generalizing m' with
  | nil => exact first
  | cons pc pcs ih => exact ih _ (later (later (later (later first _ _) _ _) _ _) _ _)

/-! ## Recursive descent -/

def markByte (m : Map) (a : Nat) : Map :=
  if a < memorySize && m.kind a != .code then { m with kind := Function.update m.kind a .data }
  else m

def markData (addr len size : Nat) (m : Map) : Map :=
  (upTo addr (min (addr + len) (endOf size))).foldl markByte m

/-- `have_ldi` and `last_ldi`. -/
abbrev Anchor := Option Nat

def noteWrite (anchor : Anchor) (len : Nat) (m : Map) : Map :=
  match anchor with
  | none => { m with smcPossible := true }
  | some addr =>
    (upTo addr (min (addr + len) memorySize)).foldl
      (fun m a => if m.reach a then { m with smcPossible := true } else m) m

/-- `if (have_ldi) mark_data (last_ldi, len, size)`. -/
def markAnchored (anchor : Anchor) (len size : Nat) (m : Map) : Map :=
  match anchor with
  | none => m
  | some addr => markData addr len size m

theorem noteWrite_only (anchor : Anchor) (len : Nat) (m : Map) :
    ∃ b, noteWrite anchor len m = { m with smcPossible := b } := by
  cases anchor with
  | none => exact ⟨true, rfl⟩
  | some addr =>
    unfold noteWrite
    dsimp only
    generalize upTo addr (min (addr + len) memorySize) = as
    induction as generalizing m with
    | nil => exact ⟨m.smcPossible, rfl⟩
    | cons a as ih =>
      rw [List.foldl_cons]
      split
      · exact ih _
      · exact ih m

theorem markByte_only (m : Map) (a : Nat) : ∃ k, markByte m a = { m with kind := k } := by
  unfold markByte
  split
  · exact ⟨_, rfl⟩
  · exact ⟨m.kind, rfl⟩

theorem markData_only (addr len size : Nat) (m : Map) :
    ∃ k, markData addr len size m = { m with kind := k } := by
  unfold markData
  generalize upTo addr (min (addr + len) (endOf size)) = as
  induction as generalizing m with
  | nil => exact ⟨m.kind, rfl⟩
  | cons a as ih =>
    obtain ⟨k, only⟩ := markByte_only m a
    rw [List.foldl_cons, only]
    exact ih _

theorem markAnchored_only (anchor : Anchor) (len size : Nat) (m : Map) :
    ∃ k, markAnchored anchor len size m = { m with kind := k } := by
  cases anchor with
  | none => exact ⟨m.kind, rfl⟩
  | some addr => exact markData_only addr len size m

/-- Both bytes of a word become reachable code. -/
def Map.markCode (m : Map) (pc : Nat) : Map :=
  { m with
    reach := Function.update (Function.update m.reach (pc + 1) true) pc true
    kind := Function.update (Function.update m.kind (pc + 1) .code) pc .code }

/-- Where a block is being walked, and its anchor. -/
structure Block where
  pc : Nat
  anchor : Anchor

structure Walk where
  map : Map
  stack : List Nat
  block : Option Block

def pushIf (condition : Bool) (a : Nat) (stack : List Nat) : List Nat :=
  if condition then a :: stack else stack

/-- What class F does to the map. -/
def memoryEffect (op : Word) (anchor : Anchor) (size : Nat) (m : Map) : Map :=
  let len := (opX op).toNat + 1
  match opLow8 op with
  | 0x33 => markAnchored anchor 3 size (noteWrite anchor 3 m)
  | 0x55 => markAnchored anchor len size (noteWrite anchor len m)
  | 0x65 => markAnchored anchor len size m
  | _ => m

/-- The body of the inner loop, on a valid opcode. -/
def descendWord (rom : List Byte) (m : Map) (stack : List Nat) (b : Block) : Walk :=
  let size := rom.length
  let op := wordAt rom b.pc
  let m := m.markCode b.pc
  let next : Block := ⟨b.pc + 2, b.anchor⟩
  match opClass op with
  | 0x0 => ⟨m, stack, if op == 0x00ee#16 then none else some next⟩
  | 0x1 => ⟨m, pushIf (labelable (nnnOf op) size) (nnnOf op) stack, none⟩
  | 0x2 => ⟨m, pushIf (labelable (nnnOf op) size) (nnnOf op) stack, some next⟩
  | 0x3 => ⟨m, pushIf (b.pc + 4 < endOf size) (b.pc + 4) stack, some next⟩
  | 0x4 => ⟨m, pushIf (b.pc + 4 < endOf size) (b.pc + 4) stack, some next⟩
  | 0x5 => ⟨m, pushIf (b.pc + 4 < endOf size) (b.pc + 4) stack, some next⟩
  | 0x9 => ⟨m, pushIf (b.pc + 4 < endOf size) (b.pc + 4) stack, some next⟩
  | 0xa => ⟨m, stack, some { next with anchor := some (nnnOf op) }⟩
  | 0xb => ⟨{ m with indirectJumpSeen := true },
      pushIf (labelable (nnnOf op) size) (nnnOf op) stack, none⟩
  | 0xd => ⟨markAnchored b.anchor (opLow4 op) size m, stack, some next⟩
  | 0xe => ⟨m, pushIf (b.pc + 4 < endOf size) (b.pc + 4) stack, some next⟩
  | 0xf => ⟨memoryEffect op b.anchor size m, stack, some next⟩
  | _ => ⟨m, stack, some next⟩

def descendStep (rom : List Byte) (w : Walk) : Option Walk :=
  match w.block with
  | none =>
    match w.stack with
    | [] => none
    | pc :: stack => some ⟨w.map, stack, some ⟨pc, none⟩⟩
  | some b =>
    if b.pc + 1 < endOf rom.length && !w.map.reach b.pc then
      if validOpcode (wordAt rom b.pc) then some (descendWord rom w.map w.stack b)
      else some { w with block := none }
    else some { w with block := none }

def descendStart (m : Map) : Walk := ⟨m, [entrypoint.toNat], none⟩

/-- As many steps as the descent can take. -/
def descendFuel (size : Nat) : Nat := 3 * endOf size + 2

def descendWalk (rom : List Byte) (m : Map) : Walk :=
  Run.finish (descendStep rom) (descendFuel rom.length) (descendStart m)

def descend (rom : List Byte) (m : Map) : Map := (descendWalk rom m).map

example : (descend [0x60, 0x01, 0x12, 0x00] .empty).reach 0x202 = true := by decide

end ChipEight.Disas
