import ChipEight.Disas.Print
import ChipEight.Disas.Reach
import ChipEight.Library.Guarded

/-! The accesses of `analyze`, `descend` and `glue_unreachable`.

`Checked` holds the three analyses once more, with every access to an array behind a test
of its index, every push behind a test of the address, and every word read behind a test
that the ROM has it. None of these tests fails.
-/

set_option autoImplicit false

namespace ChipEight.Disas.Checked

/-! ## Accesses -/

/-- The access that is refused. -/
inductive Fault where
  | reach (i : Nat)
  | kind (i : Nat)
  | leader (i : Nat)
  | stack (i : Nat)
  /-- An odd address is pushed. -/
  | pushed (a : Nat)
  /-- A word is read that the ROM does not have. -/
  | word (p : Nat)
  deriving DecidableEq

/-- The number of entries of `stack`. -/
def stackSize : Nat := memorySize / 2

/-- An access at index `i` of an array with `n` entries. -/
def indexed {A : Type} (fault : Nat → Fault) (n i : Nat) (a : A) : Except Fault A :=
  if i < n then .ok a else .error (fault i)

def getReach (m : Map) (i : Nat) : Except Fault Bool := indexed .reach memorySize i (m.reach i)

def setReach (m : Map) (i : Nat) : Except Fault Map :=
  indexed .reach memorySize i { m with reach := Function.update m.reach i true }

def getKind (m : Map) (i : Nat) : Except Fault Kind := indexed .kind memorySize i (m.kind i)

def setKind (m : Map) (i : Nat) (k : Kind) : Except Fault Map :=
  indexed .kind memorySize i { m with kind := Function.update m.kind i k }

def setLeader (m : Map) (i : Nat) (b : Bool) : Except Fault Map :=
  indexed .leader memorySize i (m.setLeader i b)

/-- `(memory[p] << 8) | memory[p + 1]` -/
def readWord (rom : List Byte) (p : Nat) : Except Fault Word :=
  if entrypoint.toNat ≤ p ∧ p + 1 < endOf rom.length then .ok (wordAt rom p) else .error (.word p)

/-- `stack[sp++] = a` -/
def push (a : Nat) (stack : List Nat) : Except Fault (List Nat) :=
  if a % 2 = 0 then indexed .stack stackSize stack.length (a :: stack) else .error (.pushed a)

/-! ## Leaders -/

def leaderIf (m : Map) (condition : Bool) (a : Nat) : Except Fault Map :=
  if condition then setLeader m a true else .ok m

def analyzeWord (rom : List Byte) (m : Map) (pc : Nat) : Except Fault Map := do
  let op ← readWord rom pc
  let size := rom.length
  let m ← leaderIf m (namesTarget op && labelable (nnnOf op) size) (nnnOf op)
  let m ← leaderIf m (isSkip op && pc + 2 < endOf size) (pc + 2)
  let m ← leaderIf m (isSkip op && pc + 4 < endOf size) (pc + 4)
  leaderIf m (endsBlock op && pc + 2 < endOf size) (pc + 2)

def analyze (rom : List Byte) (m : Map) : Except Fault Map := do
  let m ← setLeader m entrypoint.toNat true
  (wordAddresses rom.length).foldlM (analyzeWord rom) m

/-! ## Recursive descent -/

def markByte (m : Map) (a : Nat) : Except Fault Map :=
  if a < memorySize then do
    let k ← getKind m a
    if k != .code then setKind m a .data else .ok m
  else .ok m

def markData (addr len size : Nat) (m : Map) : Except Fault Map :=
  (upTo addr (min (addr + len) (endOf size))).foldlM markByte m

def noteByte (m : Map) (a : Nat) : Except Fault Map := do
  let reached ← getReach m a
  if reached then .ok { m with smcPossible := true } else .ok m

def noteWrite (anchor : Anchor) (len : Nat) (m : Map) : Except Fault Map :=
  match anchor with
  | none => .ok { m with smcPossible := true }
  | some addr => (upTo addr (min (addr + len) memorySize)).foldlM noteByte m

def markAnchored (anchor : Anchor) (len size : Nat) (m : Map) : Except Fault Map :=
  match anchor with
  | none => .ok m
  | some addr => markData addr len size m

/-- `reach[pc] = reach[pc + 1] = 1; class[pc] = class[pc + 1] = 1` -/
def markCode (m : Map) (pc : Nat) : Except Fault Map := do
  let m ← setReach m (pc + 1)
  let m ← setReach m pc
  let m ← setKind m (pc + 1) .code
  setKind m pc .code

def pushIf (condition : Bool) (a : Nat) (stack : List Nat) : Except Fault (List Nat) :=
  if condition then push a stack else .ok stack

def memoryEffect (op : Word) (anchor : Anchor) (size : Nat) (m : Map) : Except Fault Map :=
  let len := (opX op).toNat + 1
  match opLow8 op with
  | 0x33 => do
    let m ← noteWrite anchor 3 m
    markAnchored anchor 3 size m
  | 0x55 => do
    let m ← noteWrite anchor len m
    markAnchored anchor len size m
  | 0x65 => markAnchored anchor len size m
  | _ => .ok m

def descendWord (size : Nat) (op : Word) (m : Map) (stack : List Nat) (b : Block) :
    Except Fault Walk := do
  let m ← markCode m b.pc
  let next : Block := ⟨b.pc + 2, b.anchor⟩
  match opClass op with
  | 0x0 => .ok ⟨m, stack, if op == 0x00ee#16 then none else some next⟩
  | 0x1 => do
    let stack ← pushIf (labelable (nnnOf op) size) (nnnOf op) stack
    .ok ⟨m, stack, none⟩
  | 0x2 => do
    let stack ← pushIf (labelable (nnnOf op) size) (nnnOf op) stack
    .ok ⟨m, stack, some next⟩
  | 0x3 => do
    let stack ← pushIf (b.pc + 4 < endOf size) (b.pc + 4) stack
    .ok ⟨m, stack, some next⟩
  | 0x4 => do
    let stack ← pushIf (b.pc + 4 < endOf size) (b.pc + 4) stack
    .ok ⟨m, stack, some next⟩
  | 0x5 => do
    let stack ← pushIf (b.pc + 4 < endOf size) (b.pc + 4) stack
    .ok ⟨m, stack, some next⟩
  | 0x9 => do
    let stack ← pushIf (b.pc + 4 < endOf size) (b.pc + 4) stack
    .ok ⟨m, stack, some next⟩
  | 0xa => .ok ⟨m, stack, some { next with anchor := some (nnnOf op) }⟩
  | 0xb => do
    let stack ← pushIf (labelable (nnnOf op) size) (nnnOf op) stack
    .ok ⟨{ m with indirectJumpSeen := true }, stack, none⟩
  | 0xd => do
    let m ← markAnchored b.anchor (opLow4 op) size m
    .ok ⟨m, stack, some next⟩
  | 0xe => do
    let stack ← pushIf (b.pc + 4 < endOf size) (b.pc + 4) stack
    .ok ⟨m, stack, some next⟩
  | 0xf => do
    let m ← memoryEffect op b.anchor size m
    .ok ⟨m, stack, some next⟩
  | _ => .ok ⟨m, stack, some next⟩

def descendStep (rom : List Byte) (w : Walk) : Except Fault (Option Walk) :=
  match w.block with
  | none =>
    match w.stack with
    | [] => .ok none
    -- `stack[--sp]`
    | pc :: stack => indexed .stack stackSize stack.length (some ⟨w.map, stack, some ⟨pc, none⟩⟩)
  | some b =>
    if b.pc + 1 < endOf rom.length then do
      let reached ← getReach w.map b.pc
      if reached then .ok (some { w with block := none })
      else
        let op ← readWord rom b.pc
        if validOpcode op then
          let w ← descendWord rom.length op w.map w.stack b
          .ok (some w)
        else .ok (some { w with block := none })
    else .ok (some { w with block := none })

def descend (rom : List Byte) (m : Map) : Except Fault Map := do
  let stack ← push entrypoint.toNat []
  let w ← Guarded.finish (descendStep rom) (descendFuel rom.length) ⟨m, stack, none⟩
  .ok w.map

/-! ## Gluing -/

def glueByte (size : Nat) (inside : Bool) (m : Map) (a : Nat) : Except Fault (Map × Bool) := do
  let reached ← getReach m a
  if reached then .ok (m, false)
  else if inside then
    let m ← setLeader m a false
    .ok (m, true)
  else
    let m ← leaderIf m (labelable a size) a
    .ok (m, true)

def glueFrom (size : Nat) (inside : Bool) (m : Map) : List Nat → Except Fault Map
  | [] => .ok m
  | a :: rest => do
    let r ← glueByte size inside m a
    glueFrom size r.2 r.1 rest

def glueUnreachable (size : Nat) (m : Map) : Except Fault Map :=
  glueFrom size false m (upTo entrypoint.toNat (endOf size))

/-- `analyze (size); descend (size); glue_unreachable (size);` -/
def finalMap (rom : List Byte) : Except Fault Map := do
  let m ← analyze rom .empty
  let m ← descend rom m
  glueUnreachable rom.length m

/-! ## The tests succeed -/

theorem indexed_ok {A : Type} {fault : Nat → Fault} {n i : Nat} {a : A} (inside : i < n) :
    indexed fault n i a = .ok a := if_pos inside

theorem endOf_le {rom : List Byte} (fits : rom.length ≤ 3584) : endOf rom.length ≤ memorySize :=
  Nat.add_le_add_left fits entrypoint.toNat

theorem mem_upTo {lo hi a : Nat} : a ∈ upTo lo hi ↔ lo ≤ a ∧ a < hi := by
  unfold upTo
  rw [List.mem_range'_1]
  omega

theorem leaderIf_ok {m : Map} {condition : Bool} {a : Nat}
    (inside : condition = true → a < memorySize) :
    leaderIf m condition a = .ok (m.leaderIf condition a) := by
  unfold leaderIf Map.leaderIf
  split
  · rename_i met
    exact indexed_ok (inside met)
  · rfl

theorem labelable_lt {a size : Nat} (fits : endOf size ≤ memorySize)
    (label : labelable a size = true) : a < memorySize := by
  simp only [labelable, Bool.and_eq_true, decide_eq_true_eq] at label
  omega

theorem readWord_ok {rom : List Byte} {p : Nat} (low : entrypoint.toNat ≤ p)
    (high : p + 1 < endOf rom.length) : readWord rom p = .ok (wordAt rom p) := if_pos ⟨low, high⟩

theorem analyze_ok {rom : List Byte} (fits : rom.length ≤ 3584) (m : Map) :
    analyze rom m = .ok (Disas.analyze rom m) := by
  have small := endOf_le fits
  have entry : setLeader m entrypoint.toNat true = .ok (m.setLeader entrypoint.toNat true) :=
    indexed_ok (by decide)
  rw [analyze, entry, Guarded.ok_bind, Disas.analyze]
  apply Guarded.foldlM_ok
  intro m pc here
  obtain ⟨i, within, isPc⟩ := List.mem_map.mp here
  have below := List.mem_range.mp within
  have inside : pc + 1 < endOf rom.length := by
    unfold endOf
    omega
  have behind {k : Nat} {flag : Bool} (met : (flag && decide (pc + k < endOf rom.length)) = true) :
      pc + k < memorySize :=
    Nat.lt_of_lt_of_le (of_decide_eq_true (Bool.and_eq_true_iff.mp met).2) small
  rw [analyzeWord, readWord_ok (by omega) inside, Guarded.ok_bind]
  dsimp only
  rw [leaderIf_ok fun met => labelable_lt small (Bool.and_eq_true_iff.mp met).2, Guarded.ok_bind,
    leaderIf_ok behind, Guarded.ok_bind, leaderIf_ok behind, Guarded.ok_bind, leaderIf_ok behind]
  rfl

/-! ## The effects of a word -/

theorem markByte_ok (m : Map) (a : Nat) : markByte m a = .ok (Disas.markByte m a) := by
  unfold markByte Disas.markByte
  by_cases inside : a < memorySize
  · rw [if_pos inside, getKind, indexed_ok inside, Guarded.ok_bind]
    by_cases code : m.kind a = .code
    · simp [code]
    · simp [code, inside, setKind, indexed]
  · simp [inside]

theorem markData_ok (addr len size : Nat) (m : Map) :
    markData addr len size m = .ok (Disas.markData addr len size m) :=
  Guarded.foldlM_ok (fun m a _ => markByte_ok m a) m

theorem markAnchored_ok (anchor : Anchor) (len size : Nat) (m : Map) :
    markAnchored anchor len size m = .ok (Disas.markAnchored anchor len size m) := by
  cases anchor with
  | none => rfl
  | some addr => exact markData_ok addr len size m

theorem noteWrite_ok (anchor : Anchor) (len : Nat) (m : Map) :
    noteWrite anchor len m = .ok (Disas.noteWrite anchor len m) := by
  cases anchor with
  | none => rfl
  | some addr =>
    apply Guarded.foldlM_ok
    intro m a here
    have inside : a < memorySize := Nat.lt_of_lt_of_le (mem_upTo.mp here).2 (Nat.min_le_right _ _)
    rw [noteByte, getReach, indexed_ok inside, Guarded.ok_bind]
    split <;> rfl

theorem memoryEffect_ok (op : Word) (anchor : Anchor) (size : Nat) (m : Map) :
    memoryEffect op anchor size m = .ok (Disas.memoryEffect op anchor size m) := by
  unfold memoryEffect Disas.memoryEffect
  simp only [noteWrite_ok, markAnchored_ok, Guarded.ok_bind]
  split <;> simp only [*]

theorem markCode_ok (m : Map) {pc : Nat} (inside : pc + 1 < memorySize) :
    markCode m pc = .ok (m.markCode pc) := by
  have here : pc < memorySize := Nat.lt_of_succ_lt inside
  simp only [markCode, setReach, setKind, indexed_ok inside, indexed_ok here, Guarded.ok_bind]
  rfl

theorem pushIf_ok {condition : Bool} {a : Nat} {stack : List Nat}
    (even : condition = true → a % 2 = 0) (room : stack.length < stackSize) :
    pushIf condition a stack = .ok (Disas.pushIf condition a stack) := by
  unfold pushIf Disas.pushIf
  split
  · rename_i met
    rw [push, if_pos (even met), indexed_ok room]
  · rfl

theorem descendWord_ok {rom : List Byte} {m : Map} {stack : List Nat} {b : Block}
    (even : b.pc % 2 = 0) (inside : b.pc + 1 < memorySize) (room : stack.length < stackSize) :
    descendWord rom.length (wordAt rom b.pc) m stack b =
      .ok (Disas.descendWord rom m stack b) := by
  have named : pushIf (labelable (nnnOf (wordAt rom b.pc)) rom.length) (nnnOf (wordAt rom b.pc))
      stack = .ok (Disas.pushIf (labelable (nnnOf (wordAt rom b.pc)) rom.length)
        (nnnOf (wordAt rom b.pc)) stack) :=
    pushIf_ok (fun label => (labelable_iff.mp label).2.2) room
  have skips : pushIf (b.pc + 4 < endOf rom.length) (b.pc + 4) stack =
      .ok (Disas.pushIf (b.pc + 4 < endOf rom.length) (b.pc + 4) stack) :=
    pushIf_ok (fun _ => by omega) room
  unfold descendWord Disas.descendWord
  simp only [markCode_ok m inside, named, skips, markAnchored_ok, memoryEffect_ok, Guarded.ok_bind]
  split <;> simp only [*]

/-! ## The height of the stack -/

/-- The words of the ROM that are not marked as reachable, by their number. -/
def unvisited (size : Nat) (m : Map) : Finset Nat :=
  (Finset.range (size / 2)).filter fun i => m.reach (entrypoint.toNat + 2 * i) = false

/-- An address is pushed for every word visited, at most, and one before the first. -/
structure Held (rom : List Byte) (w : Walk) : Prop where
  sweep : Sweep rom w
  height : w.stack.length + (unvisited rom.length w.map).card ≤ rom.length / 2 + 1

section
variable {rom : List Byte} (fits : rom.length ≤ 3584)

theorem unvisited_word {m m' : Map} {pc : Nat} (aligned : Aligned pc)
    (inside : pc + 1 < endOf rom.length) (fresh : m.reach pc = false)
    (marked : m'.reach = (m.markCode pc).reach) :
    (unvisited rom.length m').card < (unvisited rom.length m).card := by
  have base : entrypoint.toNat = 512 := rfl
  obtain ⟨low, even⟩ := aligned
  have number : entrypoint.toNat + 2 * ((pc - 512) / 2) = pc := by omega
  apply Finset.card_lt_card
  rw [Finset.ssubset_iff_of_subset]
  · refine ⟨(pc - 512) / 2, Finset.mem_filter.mpr ⟨Finset.mem_range.mpr ?_, ?_⟩, ?_⟩
    · unfold endOf at inside
      omega
    · rw [number]
      exact fresh
    · intro still
      have clear := (Finset.mem_filter.mp still).2
      rw [number, marked, (markCode_reach m pc pc).mpr (.inl rfl)] at clear
      cases clear
  · intro i left
    obtain ⟨below, clear⟩ := Finset.mem_filter.mp left
    refine Finset.mem_filter.mpr ⟨below, ?_⟩
    apply Bool.eq_false_iff.mpr
    intro set
    rw [marked, (markCode_reach m pc _).mpr (.inr (.inr set))] at clear
    cases clear

theorem held_start {m : Map} (clear : ∀ a, m.reach a = false) : Held rom (descendStart m) where
  sweep := sweep_start clear
  height := by
    have few : (unvisited rom.length m).card ≤ rom.length / 2 :=
      (Finset.card_filter_le _ _).trans_eq (Finset.card_range _)
    simp only [descendStart, List.length_singleton]
    omega

include fits in
theorem descendStep_held {w w' : Walk} (held : Held rom w)
    (stepped : Disas.descendStep rom w = some w') : Held rom w' := by
  refine ⟨descendStep_sweep fits held.sweep stepped, ?_⟩
  have height := held.height
  cases descendStep_moves stepped with
  | pop =>
    simp only [List.length_cons] at height
    dsimp only
    omega
  | leave => exact height
  | @word m stack b inside fresh valid =>
    have visits := unvisited_word (held.sweep.blockAligned b rfl) inside fresh
      (descendWord_reach rom m stack b)
    dsimp only at height
    obtain same | ⟨q, pushed, -⟩ := descendWord_stack rom m stack b
    · rw [same]
      omega
    · rw [pushed, List.length_cons]
      omega

include fits in
theorem Held.room {w : Walk} (held : Held rom w) : w.stack.length < stackSize := by
  have height := held.height
  unfold stackSize memorySize
  omega

include fits in
theorem descendStep_ok {w : Walk} (held : Held rom w) :
    descendStep rom w = .ok (Disas.descendStep rom w) := by
  have room := held.room fits
  obtain ⟨m, stack, block⟩ := w
  unfold descendStep Disas.descendStep
  cases block with
  | none =>
    cases stack with
    | nil => rfl
    | cons pc stack => exact indexed_ok (Nat.lt_of_succ_lt room)
  | some b =>
    obtain ⟨low, even⟩ := held.sweep.blockAligned b rfl
    dsimp only
    by_cases inside : b.pc + 1 < endOf rom.length
    · have below : b.pc + 1 < memorySize := Nat.lt_of_lt_of_le inside (endOf_le fits)
      rw [if_pos inside, getReach, indexed_ok (Nat.lt_of_succ_lt below), Guarded.ok_bind]
      cases fresh : m.reach b.pc with
      | true => simp
      | false =>
        rw [if_neg Bool.false_ne_true, readWord_ok low inside, Guarded.ok_bind]
        by_cases valid : validOpcode (wordAt rom b.pc) = true
        · rw [if_pos valid, descendWord_ok even below room, Guarded.ok_bind]
          simp [inside, valid]
        · simp [inside, valid]
    · simp [inside]

include fits in
theorem descend_ok {m : Map} (clear : ∀ a, m.reach a = false) :
    descend rom m = .ok (Disas.descend rom m) := by
  have entry : push entrypoint.toNat [] = .ok [entrypoint.toNat] := rfl
  have run := Guarded.finish_ok (fun _ _ => descendStep_held fits)
    (fun _ => descendStep_ok fits) (descendFuel rom.length) (held_start clear)
  rw [descend, entry, Guarded.ok_bind]
  show (Guarded.finish (descendStep rom) (descendFuel rom.length) (descendStart m) >>= _) = _
  rw [run]
  rfl

/-! ## Gluing -/

theorem glueByte_ok {size : Nat} (small : endOf size ≤ memorySize) (inside : Bool) (m : Map)
    {a : Nat} (below : a < endOf size) :
    glueByte size inside m a = .ok (Disas.glueByte size inside m a) := by
  have within : a < memorySize := Nat.lt_of_lt_of_le below small
  unfold glueByte Disas.glueByte
  rw [getReach, indexed_ok within, Guarded.ok_bind, setLeader, indexed_ok within,
    leaderIf_ok fun _ => within]
  split
  · rfl
  · split <;> rfl

theorem glueFrom_ok {size : Nat} (small : endOf size ≤ memorySize) {as : List Nat}
    (below : ∀ a ∈ as, a < endOf size) (inside : Bool) (m : Map) :
    glueFrom size inside m as = .ok (Disas.glueFrom size inside m as) := by
  induction as generalizing inside m with
  | nil => rfl
  | cons a as ih =>
    rw [glueFrom, glueByte_ok small inside m (below a List.mem_cons_self), Guarded.ok_bind]
    exact ih (fun a later => below a (List.mem_cons_of_mem _ later)) _ _

theorem glueUnreachable_ok {size : Nat} (small : endOf size ≤ memorySize) (m : Map) :
    glueUnreachable size m = .ok (Disas.glueUnreachable size m) :=
  glueFrom_ok small (fun _ here => (mem_upTo.mp here).2) false m

include fits in
theorem finalMap_ok : finalMap rom = .ok (Disas.finalMap rom) := by
  have clear (a : Nat) : (Disas.analyze rom .empty).reach a = false := by
    rw [analyze_reach]
    rfl
  rw [finalMap, analyze_ok fits, Guarded.ok_bind, descend_ok fits clear, Guarded.ok_bind,
    glueUnreachable_ok (endOf_le fits)]
  rfl

end

/-- The analyses of a ROM that fits into memory access their arrays within bounds, push even
addresses only and read words the ROM has, and the descent comes to its end. -/
theorem analyses_in_bounds (rom : List Byte) (fits : rom.length ≤ 3584) :
    finalMap rom = .ok (Disas.finalMap rom) ∧
    Disas.descendStep rom (descendWalk rom (Disas.analyze rom .empty)) = none ∧
    ∀ w, Run.Reaches (Disas.descendStep rom) (descendStart (Disas.analyze rom .empty)) w →
      descendStep rom w = .ok (Disas.descendStep rom w) ∧ w.stack.length ≤ rom.length / 2 + 1 ∧
        ∀ q ∈ w.stack, q % 2 = 0 := by
  refine ⟨finalMap_ok fits, descendWalk_stops rom _, ?_⟩
  intro w reached
  have clear (a : Nat) : (Disas.analyze rom .empty).reach a = false := by
    rw [analyze_reach]
    rfl
  have held : Held rom w :=
    reached.invariant (fun _ _ => descendStep_held fits) (held_start clear)
  exact ⟨descendStep_ok fits held, Nat.le_trans (Nat.le_add_right _ _) held.height,
    fun q here => (held.sweep.stackAligned q here).2⟩

/-- Two skips onto each other's way, and a jump back. -/
theorem analyses_in_bounds_loop :
    finalMap [0x30#8, 0x00#8, 0x40#8, 0x00#8, 0x12#8, 0x00#8] =
      .ok (Disas.finalMap [0x30#8, 0x00#8, 0x40#8, 0x00#8, 0x12#8, 0x00#8]) :=
  (analyses_in_bounds [0x30#8, 0x00#8, 0x40#8, 0x00#8, 0x12#8, 0x00#8] (by decide)).1

end ChipEight.Disas.Checked
