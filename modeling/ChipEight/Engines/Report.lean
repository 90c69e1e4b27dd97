import ChipEight.Disas.Print
import ChipEight.Library.Numeral
import ChipEight.Machine.Bench
import ChipEight.Opt.Reading
import Mathlib.Data.List.DropRight
import Mathlib.Data.Nat.Bitwise

/-! The report of a `BENCH` run (chip8.c, bench_io.c) and how scripts/bench_diff.py reads
and compares two of them.

The texts of the two times, which are floating point numbers, are data of a report. No
comparison looks at them.
-/

set_option autoImplicit false

namespace ChipEight.Diff

open Asm (Text)
open Disas (hexDigit)
open Opt (isLineBreak isWhitespace splitlines)

/-! ## The display hash -/

namespace Hash

def offsetBasis : BitVec 64 := 1469598103934665603#64
def prime : BitVec 64 := 1099511628211#64

/-- One cell: `h ^= cell; h *= prime`. -/
def step (h : BitVec 64) (lit : Bool) : BitVec 64 := (h ^^^ BitVec.ofNat 64 lit.toNat) * prime

def cells (cs : List Bool) : BitVec 64 := cs.foldl step offsetBasis

end Hash

/-- The cells the hash goes over, in its order. -/
def visible (screen : Screen) : List Bool :=
  (List.range (screen.width * screen.height)).map fun i => screen.display i != 0#8

/-- `bench_display_hash`. -/
def benchDisplayHash (screen : Screen) : BitVec 64 := Hash.cells (visible screen)

/-! ## Printing -/

/-- `0x%0wX`. -/
def upperHex (w n : Nat) : Text := ['0', 'x'] ++ Numeral.padded hexDigit 16 w n

/-- `0x%016llx`. -/
def lowerHex (w n : Nat) : Text := ['0', 'x'] ++ Numeral.padded Nat.digitChar 16 w n

/-- `%d` and `%lld`. -/
def decimal (n : Int) : Text :=
  if n < 0 then '-' :: Nat.toDigits 10 n.natAbs else Nat.toDigits 10 n.natAbs

/-- A line of a report. -/
inductive ReportLine where
  | entry (key value : Text)
  /-- `"%d %s executed"`. -/
  | counter (count : Int) (label : Text)

def ReportLine.text : ReportLine → Text
  | .entry key value => key ++ [' ', '=', ' '] ++ value
  | .counter count label => decimal count ++ (' ' :: label ++ " executed".toList)

/-- The engines that report. -/
inductive Engine where
  | interp
  | llvm
  | libgccjit
  deriving DecidableEq

def Engine.name : Engine → Text
  | .interp => "interp".toList
  | .llvm => "llvm".toList
  | .libgccjit => "libgccjit".toList

/-- `counter_label`. -/
def Engine.label : Engine → Text
  | .interp => "chip-8 instructions".toList
  | .llvm => "traces".toList
  | .libgccjit => "traces".toList

/-- A floating point number as it is printed. -/
structure Printed where
  text : Text
  oneLine : ∀ c ∈ text, isLineBreak c = false

/-- What a report is printed from, the timers not yet brought up to date. -/
structure Report where
  engine : Engine
  counter : Int
  seed : BitVec 32
  compiled : Nat
  flushes : Nat
  vm : VM
  env : Bench
  elapsed : Printed
  /-- Printed where the elapsed time is positive. -/
  rate : Option Printed

/-- `dump_chip8_state`. -/
def dumpChip8State (label : Text) (counter : Int) (vm : VM) (delay sound : Byte) :
    List ReportLine :=
  (List.range 16).map (fun i =>
      .entry ['V', hexDigit i] (upperHex 2 (vm.regs (BitVec.ofNat 4 i)).toNat)) ++
    [.counter counter label,
     .entry "$pc".toList (upperHex 4 vm.programCounter.toNat),
     .entry "$addr".toList (upperHex 4 vm.addr.toNat),
     .entry "stack depth".toList (decimal vm.stackPointer)] ++
    (if vm.stackPointer > 0 then
      [.entry ("stack[".toList ++ decimal (vm.stackPointer - 1) ++ [']'])
        (upperHex 4 (vm.stack (vm.stackPointer - 1).toNat).toNat)]
    else []) ++
    [.entry "delay".toList (decimal delay.toNat), .entry "sound".toList (decimal sound.toNat)]

def keyModeText : KeyMode → Text
  | .none => "none".toList
  | .rotate => "rotate".toList

/-- `bench_report`. -/
def benchReport (r : Report) : List ReportLine :=
  let env := r.env.syncTimers
  dumpChip8State r.engine.label r.counter r.vm env.delayTimer env.soundTimer ++
    [.entry "engine".toList r.engine.name,
     .entry "seed".toList (decimal r.seed.toNat),
     .entry "keys".toList (keyModeText env.keyMode),
     .entry "retired".toList (decimal env.retired),
     .entry "compiled".toList (decimal r.compiled),
     .entry "flushes".toList (decimal r.flushes),
     .entry "clock".toList (decimal env.now),
     .entry "display".toList (lowerHex 16 (benchDisplayHash r.vm.screen).toNat),
     .entry "elapsed".toList (r.elapsed.text ++ " s".toList)] ++
    (r.rate.map fun v => ReportLine.entry "rate".toList (v.text ++ " Minsn/s".toList)).toList

/-- What is written to `stderr`. -/
def Report.text (r : Report) : Text := ((benchReport r).map (·.text ++ ['\n'])).flatten

/-! ## Reading -/

/-- `s.strip ()`. -/
def strip (s : Text) : Text := (s.dropWhile isWhitespace).rdropWhile isWhitespace

/-- A `dict`, the last assignment to a key first. -/
abbrev Dict := List (Text × Text)

/-- The body of the loop over the lines. -/
def readReportLine (state : Dict) (line : Text) : Dict :=
  if '=' ∈ line then
    (strip (line.takeWhile (· != '=')), strip (line.dropWhile (· != '=')).tail) :: state
  else if "stack depth".toList <+: line then ("stack depth".toList, strip line) :: state
  else state

/-- The `state` of `run`; `none` where it exits with "produced no report". -/
def readReport (stderr : Text) : Option Dict :=
  let state := (splitlines stderr).foldl readReportLine []
  if (state.lookup "retired".toList).isSome then some state else none

/-! ## Comparing -/

/-- `STATE_FIELDS`. -/
def stateFields : List Text :=
  (List.range 16).map (fun i => ['V', hexDigit i]) ++
    ["$pc", "$addr", "stack depth", "delay", "sound", "display", "retired"].map String.toList

/-- `compare`. -/
def compare (ref : Dict) (refName : Text) (other : Dict) (otherName : Text) : List Text :=
  stateFields.filterMap fun field =>
    match ref.lookup field, other.lookup field with
    | some v, some w =>
      if v ≠ w then
        some (List.replicate 6 ' ' ++ field ++ [':', ' '] ++ refName ++ '=' :: v ++ ' ' ::
          otherName ++ '=' :: w)
      else none
    | _, _ => none

/-! ## The texts of numbers -/

/-- Neither white space nor an equals sign. -/
def Solid (t : Text) : Prop := ∀ c ∈ t, isWhitespace c = false ∧ isLineBreak c = false ∧ c ≠ '='

theorem Solid.append {s t : Text} (first : Solid s) (second : Solid t) : Solid (s ++ t) := by
  intro c here
  obtain left | right := List.mem_append.mp here
  · exact first c left
  · exact second c right

theorem solid_digits : ∀ d < 16, Solid [Nat.digitChar d] ∧ Solid [hexDigit d] := by
  unfold Solid
  decide

theorem solid_padded {digit : Nat → Char} (solid : ∀ d < 16, Solid [digit d]) (w n : Nat) :
    Solid (Numeral.padded digit 16 w n) := by
  intro c here
  obtain ⟨d, small, rfl⟩ := Numeral.mem_padded (by decide) here
  exact solid d small _ (List.mem_singleton_self _)

theorem solid_upperHex (w n : Nat) : Solid (upperHex w n) :=
  .append (by unfold Solid; decide) (solid_padded (fun d small => (solid_digits d small).2) w n)

theorem solid_lowerHex (w n : Nat) : Solid (lowerHex w n) :=
  .append (by unfold Solid; decide) (solid_padded (fun d small => (solid_digits d small).1) w n)

theorem solid_decimalDigit {c : Char} (digit : c.isDigit = true) :
    isWhitespace c = false ∧ isLineBreak c = false ∧ c ≠ '=' := by
  have all : ∀ n < 58, 48 ≤ n → isWhitespace (Char.ofNat n) = false ∧
      isLineBreak (Char.ofNat n) = false ∧ Char.ofNat n ≠ '=' := by decide
  simp only [Char.isDigit, Bool.and_eq_true, decide_eq_true_eq] at digit
  have low : 48 ≤ c.toNat := digit.1
  have high : c.toNat ≤ 57 := digit.2
  have here := all c.toNat (Nat.lt_succ_of_le high) low
  rwa [Char.ofNat_toNat] at here

theorem solid_decimal (n : Int) : Solid (decimal n) := by
  have digits : Solid (Nat.toDigits 10 n.natAbs) := fun c here =>
    solid_decimalDigit (Nat.isDigit_of_mem_toDigits (by decide) (by decide) here)
  unfold decimal
  split
  · exact Solid.append (s := ['-']) (by unfold Solid; decide) digits
  · exact digits

theorem upperHex_injective {w n m : Nat} (small : n < 16 ^ w) (small' : m < 16 ^ w)
    (same : upperHex w n = upperHex w m) : n = m :=
  Numeral.padded_injective (by decide) (by decide) small small' (List.append_cancel_left same)

theorem lowerHex_injective {w n m : Nat} (small : n < 16 ^ w) (small' : m < 16 ^ w)
    (same : lowerHex w n = lowerHex w m) : n = m :=
  Numeral.padded_injective (by decide) Numeral.digitChar_injective small small'
    (List.append_cancel_left same)

theorem decimal_injective {n m : Int} (same : decimal n = decimal m) : n = m := by
  -- A sign tells the negative numbers from the others.
  have unsigned (k : Nat) (t : Text) : Nat.toDigits 10 k ≠ '-' :: t := by
    intro signed
    have digit : '-'.isDigit = true := Nat.isDigit_of_mem_toDigits (b := 10) (n := k) (by decide)
      (by decide) (signed ▸ List.mem_cons_self)
    exact absurd digit (by decide)
  have values {k l : Nat} (same : Nat.toDigits 10 k = Nat.toDigits 10 l) : k = l :=
    Numeral.toDigits_injective (by decide) (by decide) same
  unfold decimal at same
  split at same <;> split at same
  · have := values (List.cons.inj same).2
    omega
  · exact absurd same.symm (unsigned _ _)
  · exact absurd same (unsigned _ _)
  · have := values same
    omega

/-! ## Reading a line back -/

theorem strip_solid {t : Text} (solid : Solid t) : strip t = t := by
  have left : t.dropWhile isWhitespace = t := by
    rw [List.dropWhile_eq_self_iff]
    intro _ blank
    rw [(solid _ (List.getElem_mem _)).1] at blank
    cases blank
  unfold strip
  rw [left, List.rdropWhile_eq_self_iff]
  intro _ blank
  rw [(solid _ (List.getLast_mem _)).1] at blank
  cases blank

theorem strip_blank (t : Text) : strip (' ' :: t) = strip t := rfl

theorem strip_trailing (t : Text) : strip (t ++ [' ']) = strip t := by
  unfold strip
  rw [List.dropWhile_append]
  split
  · rename_i none
    rw [List.isEmpty_iff] at none
    rw [none]
    rfl
  · rw [List.rdropWhile_concat_pos _ _ _ (by decide)]

/-- A key survives its blanks. -/
structure Key (k : Text) : Prop where
  single : '=' ∉ k
  stripped : strip k = k
  oneLine : ∀ c ∈ k, isLineBreak c = false

theorem Key.of_solid {k : Text} (solid : Solid k) : Key k :=
  ⟨fun here => (solid _ here).2.2 rfl, strip_solid solid, fun c here => (solid c here).2.1⟩

theorem readReportLine_entry {k : Text} (key : Key k) (v : Text) (state : Dict) :
    readReportLine state (ReportLine.entry k v).text = (k, strip v) :: state := by
  have begun : ∀ c ∈ k ++ [' '], (c != '=') = true := by
    intro c here
    rw [bne_iff_ne]
    rintro rfl
    obtain inside | blank := List.mem_append.mp here
    · exact key.single inside
    · exact absurd blank (by decide)
  have shape : (ReportLine.entry k v).text = (k ++ [' ']) ++ '=' :: ' ' :: v := by
    simp [ReportLine.text]
  have equals : '=' ∈ (k ++ [' ']) ++ '=' :: ' ' :: v :=
    List.mem_append_right _ List.mem_cons_self
  rw [readReportLine, shape, if_pos equals, List.takeWhile_append_of_pos begun,
    List.dropWhile_append_of_pos begun]
  show (strip (k ++ [' '] ++ []), strip (' ' :: v)) :: state = _
  rw [List.append_nil, strip_trailing, key.stripped, strip_blank]

theorem readReportLine_counter (e : Engine) (count : Int) (state : Dict) :
    readReportLine state (ReportLine.counter count e.label).text = state := by
  have digits := solid_decimal count
  have behind : '=' ∉ ' ' :: e.label ++ " executed".toList := by cases e <;> decide
  have noEquals : '=' ∉ (ReportLine.counter count e.label).text := by
    intro here
    obtain inside | later := List.mem_append.mp here
    · exact (digits _ inside).2.2 rfl
    · exact behind later
  have other : ¬ "stack depth".toList <+: (ReportLine.counter count e.label).text := by
    rintro ⟨rest, begun⟩
    have first : (decimal count).head? = some 's' ∨ decimal count = [] := by
      cases shape : decimal count with
      | nil => exact .inr rfl
      | cons c t =>
        rw [ReportLine.text, shape] at begun
        exact .inl (congrArg some (List.cons.inj begun).1.symm)
    unfold decimal at first
    split at first
    · simp at first
    · obtain letter | none := first
      · have digit := Nat.isDigit_of_mem_toDigits (b := 10) (n := count.natAbs) (by decide)
          (by decide) (List.mem_of_mem_head? letter)
        exact absurd digit (by decide)
      · exact absurd none (List.ne_nil_of_length_pos Nat.length_toDigits_pos)
  rw [readReportLine, if_neg noEquals, if_neg other]

/-! ## Reading a report back -/

def ReportLine.pair : ReportLine → Option (Text × Text)
  | .entry key value => some (key, strip value)
  | .counter _ _ => none

inductive Tidy : ReportLine → Prop where
  | entry {k v : Text} (key : Key k) (oneLine : ∀ c ∈ v, isLineBreak c = false) : Tidy (.entry k v)
  | counter (count : Int) (e : Engine) : Tidy (.counter count e.label)

theorem Tidy.solid {k v : Text} (key : Key k) (solid : Solid v) : Tidy (.entry k v) :=
  .entry key fun c here => (solid c here).2.1

theorem Tidy.oneLine {l : ReportLine} (tidy : Tidy l) : ∀ c ∈ l.text, isLineBreak c = false := by
  cases tidy with
  | entry key oneLine =>
    have equals : ∀ c ∈ [' ', '=', ' '], isLineBreak c = false := by decide
    simp only [ReportLine.text, List.forall_mem_append]
    exact ⟨⟨key.oneLine, equals⟩, oneLine⟩
  | counter count e =>
    have behind : ∀ c ∈ ' ' :: e.label ++ " executed".toList, isLineBreak c = false := by
      cases e <;> decide
    intro c here
    obtain digits | later := List.mem_append.mp here
    · exact (solid_decimal count c digits).2.1
    · exact behind c later

theorem read_tidy {lines : List ReportLine} (tidy : ∀ l ∈ lines, Tidy l) (state : Dict) :
    (lines.map ReportLine.text).foldl readReportLine state =
      (lines.filterMap ReportLine.pair).reverse ++ state := by
  induction lines generalizing state with
  | nil => rfl
  | cons l lines ih =>
    have later := ih fun l' here => tidy l' (List.mem_cons_of_mem l here)
    rw [List.map_cons, List.foldl_cons, later]
    cases tidy l List.mem_cons_self with
    | entry key oneLine =>
      rw [readReportLine_entry key, List.filterMap_cons]
      simp [ReportLine.pair]
    | counter count e =>
      rw [readReportLine_counter, List.filterMap_cons]
      rfl

variable (r : Report)

/-- The line for the top of the stack. -/
def stackKey (r : Report) : Text := "stack[".toList ++ decimal (r.vm.stackPointer - 1) ++ [']']

theorem key_stack : Key (stackKey r) :=
  .of_solid ((Solid.append (by unfold Solid; decide) (solid_decimal _)).append
    (by unfold Solid; decide))

theorem key_register : ∀ i < 16, Key ['V', hexDigit i] := by
  intro i small
  apply Key.of_solid
  unfold Solid
  revert i
  decide

theorem benchReport_tidy : ∀ l ∈ benchReport r, Tidy l := by
  have plain (k : Text) (single : '=' ∉ k) (stripped : strip k = k)
      (oneLine : ∀ c ∈ k, isLineBreak c = false) {v : Text} (solid : Solid v) :
      Tidy (.entry k v) := .solid ⟨single, stripped, oneLine⟩ solid
  have timed (k : Text) (single : '=' ∉ k) (stripped : strip k = k)
      (oneLine : ∀ c ∈ k, isLineBreak c = false) (p : Printed) {unit : Text}
      (solid : ∀ c ∈ unit, isLineBreak c = false) : Tidy (.entry k (p.text ++ unit)) := by
    refine .entry ⟨single, stripped, oneLine⟩ fun c here => ?_
    obtain inside | behind := List.mem_append.mp here
    · exact p.oneLine c inside
    · exact solid c behind
  unfold benchReport dumpChip8State
  simp only [List.forall_mem_append, List.forall_mem_cons, List.not_mem_nil, false_implies,
    implies_true, and_true]
  refine ⟨⟨⟨⟨⟨?_, .counter _ _, ?_, ?_, ?_⟩, ?_⟩, ?_, ?_⟩, ?_, ?_, ?_, ?_, ?_, ?_, ?_, ?_, ?_⟩, ?_⟩
  · intro l here
    obtain ⟨i, small, rfl⟩ := List.mem_map.mp here
    exact .solid (key_register i (List.mem_range.mp small)) (solid_upperHex _ _)
  · exact plain _ (by decide) (by decide) (by decide) (solid_upperHex _ _)
  · exact plain _ (by decide) (by decide) (by decide) (solid_upperHex _ _)
  · exact plain _ (by decide) (by decide) (by decide) (solid_decimal _)
  · intro l here
    split at here
    · obtain rfl := List.mem_singleton.mp here
      exact .solid (key_stack r) (solid_upperHex _ _)
    · cases here
  · exact plain _ (by decide) (by decide) (by decide) (solid_decimal _)
  · exact plain _ (by decide) (by decide) (by decide) (solid_decimal _)
  · exact plain _ (by decide) (by decide) (by decide)
      (by unfold Solid; cases r.engine <;> decide)
  · exact plain _ (by decide) (by decide) (by decide) (solid_decimal _)
  · exact plain _ (by decide) (by decide) (by decide)
      (by unfold Solid; cases r.env.syncTimers.keyMode <;> decide)
  · exact plain _ (by decide) (by decide) (by decide) (solid_decimal _)
  · exact plain _ (by decide) (by decide) (by decide) (solid_decimal _)
  · exact plain _ (by decide) (by decide) (by decide) (solid_decimal _)
  · exact plain _ (by decide) (by decide) (by decide) (solid_decimal _)
  · exact plain _ (by decide) (by decide) (by decide) (solid_lowerHex _ _)
  · exact timed _ (by decide) (by decide) (by decide) r.elapsed (by decide)
  · intro l here
    cases rate : r.rate with
    | none =>
      rw [rate] at here
      cases here
    | some p =>
      rw [rate] at here
      obtain rfl := List.mem_singleton.mp here
      exact timed _ (by decide) (by decide) (by decide) p (by decide)

/-- The lines of a report that assign to a key. -/
def entries (r : Report) : Dict := (benchReport r).filterMap ReportLine.pair

/-- The keys in front of the line for the top of the stack. -/
def frontKeys : List Text :=
  (List.range 16).map (fun i => ['V', hexDigit i]) ++
    ["$pc".toList, "$addr".toList, "stack depth".toList]

/-- The keys behind it. -/
def backKeys : List Text :=
  ["delay", "sound", "engine", "seed", "keys", "retired", "compiled", "flushes", "clock",
    "display", "elapsed"].map String.toList

theorem entries_keys : (entries r).map Prod.fst = frontKeys ++
    ((if r.vm.stackPointer > 0 then [stackKey r] else []) ++
      (backKeys ++ (r.rate.map fun _ => "rate".toList).toList)) := by
  unfold entries benchReport dumpChip8State
  cases r.rate <;> split <;> rfl

theorem stackKey_ne {k : Text} (other : k.take 6 ≠ "stack[".toList) : k ≠ stackKey r := by
  rintro rfl
  exact other rfl

theorem entries_distinct : ((entries r).map Prod.fst).Nodup := by
  have fixed : (frontKeys ++ (backKeys ++ ["rate".toList])).Nodup := by decide +kernel
  have apart : stackKey r ∉ frontKeys ++ (backKeys ++ ["rate".toList]) := by
    have others : ∀ k ∈ frontKeys ++ (backKeys ++ ["rate".toList]), k.take 6 ≠ "stack[".toList := by
      decide +kernel
    exact fun here => stackKey_ne r (others _ here) rfl
  have whole : (frontKeys ++ stackKey r :: (backKeys ++ ["rate".toList])).Nodup :=
    List.perm_middle.nodup_iff.mpr (List.nodup_cons.mpr ⟨apart, fixed⟩)
  refine List.Nodup.sublist ?_ whole
  rw [entries_keys]
  refine (List.Sublist.refl frontKeys).append ?_
  have behind : (backKeys ++ (r.rate.map fun _ => "rate".toList).toList).Sublist
      (backKeys ++ ["rate".toList]) := by
    refine (List.Sublist.refl backKeys).append ?_
    cases r.rate with
    | none => exact List.nil_sublist _
    | some p => exact .refl _
  split
  · exact behind.cons_cons _
  · exact behind.cons _

theorem rate_absent (none : r.rate = none) : "rate".toList ∉ (entries r).map Prod.fst := by
  have others : "rate".toList ∉ frontKeys ++ backKeys := by decide +kernel
  have apart : "rate".toList ≠ stackKey r := stackKey_ne r (by decide)
  rw [entries_keys, none]
  intro here
  simp only [Option.map_none, Option.toList_none, List.append_nil, List.mem_append] at here others
  obtain front | top | back := here
  · exact others (.inl front)
  · split at top
    · exact apart (List.mem_singleton.mp top)
    · cases top
  · exact others (.inr back)

theorem lookup_distinct {d : Dict} (distinct : (d.map Prod.fst).Nodup) {k v : Text}
    (here : (k, v) ∈ d) : d.lookup k = some v := by
  induction d with
  | nil => cases here
  | cons p d ih =>
    obtain ⟨k', v'⟩ := p
    rw [List.map_cons, List.nodup_cons] at distinct
    rw [List.lookup_cons]
    obtain same | later := List.mem_cons.mp here
    · cases same
      rw [beq_self_eq_true]
    · have other : (k == k') = false := by
        rw [beq_eq_false_iff_ne]
        rintro rfl
        exact distinct.1 (List.mem_map.mpr ⟨_, later, rfl⟩)
      rw [other]
      exact ih distinct.2 later

/-- What a field of the state is read back as. -/
def fields : List (Text × (Report → Text)) :=
  (List.range 16).map (fun i =>
      (['V', hexDigit i], fun r => upperHex 2 (r.vm.regs (BitVec.ofNat 4 i)).toNat)) ++
    [("$pc".toList, fun r => upperHex 4 r.vm.programCounter.toNat),
     ("$addr".toList, fun r => upperHex 4 r.vm.addr.toNat),
     ("stack depth".toList, fun r => decimal r.vm.stackPointer),
     ("delay".toList, fun r => decimal r.env.syncTimers.delayTimer.toNat),
     ("sound".toList, fun r => decimal r.env.syncTimers.soundTimer.toNat),
     ("display".toList, fun r => lowerHex 16 (benchDisplayHash r.vm.screen).toNat),
     ("retired".toList, fun r => decimal r.env.syncTimers.retired)]

theorem fields_keys : fields.map Prod.fst = stateFields := rfl

theorem fields_solid : ∀ f ∈ fields, Solid (f.2 r) := by
  unfold fields
  simp only [List.forall_mem_append, List.forall_mem_cons, List.not_mem_nil, false_implies,
    implies_true, and_true]
  refine ⟨?_, solid_upperHex _ _, solid_upperHex _ _, solid_decimal _, solid_decimal _,
    solid_decimal _, solid_lowerHex _ _, solid_decimal _⟩
  intro f here
  obtain ⟨i, -, rfl⟩ := List.mem_map.mp here
  exact solid_upperHex _ _

theorem fields_printed : ∀ f ∈ fields, ReportLine.entry f.1 (f.2 r) ∈ benchReport r := by
  unfold fields benchReport dumpChip8State
  simp only [List.forall_mem_append, List.forall_mem_cons, List.not_mem_nil, false_implies,
    implies_true, and_true]
  refine ⟨?_, ?_, ?_, ?_, ?_, ?_, ?_, ?_⟩
  · intro f here
    obtain ⟨i, small, rfl⟩ := List.mem_map.mp here
    simp only [List.mem_append]
    exact .inl (.inl (.inl (.inl (.inl (List.mem_map_of_mem small)))))
  all_goals simp

/-- What the script has read shows the fields of a report, and whether it has a rate. -/
structure Shows (r : Report) (state : Dict) : Prop where
  field : ∀ f ∈ fields, state.lookup f.1 = some (f.2 r)
  rate : (state.lookup "rate".toList).isSome = r.rate.isSome

theorem Shows.retired {r : Report} {state : Dict} (shows : Shows r state) :
    state.lookup "retired".toList = some (decimal r.env.syncTimers.retired) :=
  shows.field ("retired".toList, fun r => decimal r.env.syncTimers.retired)
    (List.mem_append_right _ (by simp))

theorem entries_show : Shows r (entries r).reverse := by
  have distinct : ((entries r).reverse.map Prod.fst).Nodup := by
    rw [List.map_reverse]
    exact List.nodup_reverse.mpr (entries_distinct r)
  have found {k v : Text} (printed : ReportLine.entry k v ∈ benchReport r) :
      (entries r).reverse.lookup k = some (strip v) :=
    lookup_distinct distinct (List.mem_reverse.mpr (List.mem_filterMap.mpr ⟨_, printed, rfl⟩))
  refine ⟨fun f here => ?_, ?_⟩
  · rw [found (fields_printed r f here), strip_solid (fields_solid r f here)]
  · cases rated : r.rate with
    | some p =>
      have printed : ReportLine.entry "rate".toList (p.text ++ " Minsn/s".toList) ∈ benchReport r := by
        unfold benchReport
        rw [rated]
        exact List.mem_append_right _ (List.mem_singleton_self _)
      rw [found printed]
      rfl
    | none =>
      have absent : "rate".toList ∉ (entries r).reverse.map Prod.fst := by
        rw [List.map_reverse, List.mem_reverse]
        exact rate_absent r rated
      rw [List.lookup_eq_none_iff.mpr]
      · rfl
      · intro q here
        rw [bne_iff_ne]
        intro same
        exact absent (List.mem_map.mpr ⟨q, here, same.symm⟩)

theorem readReport_text : ∃ state, readReport r.text = some state ∧ Shows r state := by
  have tidy := benchReport_tidy r
  have lines : splitlines r.text = (benchReport r).map ReportLine.text := by
    have shape : r.text = (((benchReport r).map ReportLine.text).map (· ++ ['\n'])).flatten := by
      rw [List.map_map]
      rfl
    rw [shape, Opt.splitlines_printed]
    intro t here
    obtain ⟨l, inside, rfl⟩ := List.mem_map.mp here
    exact (tidy l inside).oneLine
  have shows := entries_show r
  refine ⟨(entries r).reverse, ?_, shows⟩
  have state : (splitlines r.text).foldl readReportLine [] = (entries r).reverse := by
    rw [lines, read_tidy tidy, List.append_nil]
    rfl
  unfold readReport
  simp only [state]
  rw [shows.retired]
  rfl

/-! ## What a comparison sees -/

/-- The reports show the same state. -/
structure Alike (r r' : Report) : Prop where
  regs : r.vm.regs = r'.vm.regs
  programCounter : r.vm.programCounter = r'.vm.programCounter
  addr : r.vm.addr = r'.vm.addr
  stackPointer : r.vm.stackPointer = r'.vm.stackPointer
  delay : r.env.syncTimers.delayTimer = r'.env.syncTimers.delayTimer
  sound : r.env.syncTimers.soundTimer = r'.env.syncTimers.soundTimer
  display : benchDisplayHash r.vm.screen = benchDisplayHash r'.vm.screen
  retired : r.env.retired = r'.env.retired

variable (r' : Report)

theorem alike_iff : Alike r r' ↔ ∀ f ∈ fields, f.2 r = f.2 r' := by
  have retired (r : Report) : r.env.syncTimers.retired = r.env.retired :=
    (Bench.keeps_syncTimers r.env).retired
  have bits {w : Nat} {v v' : BitVec (4 * w)} (same : upperHex w v.toNat = upperHex w v'.toNat) :
      v = v' := by
    have small (v : BitVec (4 * w)) : v.toNat < 16 ^ w := by
      have := v.isLt
      rwa [Nat.pow_mul] at this
    exact BitVec.eq_of_toNat_eq (upperHex_injective (small v) (small v') same)
  have hash {v v' : BitVec 64} (same : lowerHex 16 v.toNat = lowerHex 16 v'.toNat) : v = v' :=
    BitVec.eq_of_toNat_eq (lowerHex_injective v.isLt v'.isLt same)
  have byte {v v' : Byte} (same : decimal v.toNat = decimal v'.toNat) : v = v' :=
    BitVec.eq_of_toNat_eq (Int.ofNat.inj (decimal_injective same))
  unfold fields
  simp only [List.forall_mem_append, List.forall_mem_cons, List.not_mem_nil, false_implies,
    implies_true, and_true, retired]
  constructor
  · rintro ⟨regs, pc, addr, depth, delay, sound, display, count⟩
    rw [pc, addr, depth, delay, sound, display, count]
    refine ⟨?_, rfl, rfl, rfl, rfl, rfl, rfl, rfl⟩
    intro f here
    obtain ⟨i, -, rfl⟩ := List.mem_map.mp here
    exact congrArg (fun regs : Reg → Byte => upperHex 2 (regs (BitVec.ofNat 4 i)).toNat) regs
  · rintro ⟨regs, pc, addr, depth, delay, sound, display, count⟩
    refine ⟨?_, bits (w := 4) pc, bits (w := 4) addr, decimal_injective depth, byte delay,
      byte sound, hash display, Int.ofNat.inj (decimal_injective count)⟩
    funext x
    have same := regs _ (List.mem_map_of_mem (List.mem_range.mpr x.isLt))
    simp only [BitVec.ofNat_toNat, BitVec.setWidth_eq] at same
    exact bits (w := 2) same

theorem Shows.silent_iff {state state' : Dict} (shows : Shows r state) (shows' : Shows r' state')
    (name name' : Text) : compare state name state' name' = [] ↔ Alike r r' := by
  rw [alike_iff, compare, List.filterMap_eq_nil_iff, ← fields_keys, List.forall_mem_map]
  apply forall₂_congr
  intro f here
  rw [shows.field f here, shows'.field f here]
  simp

/-- Two reports are read back as they were printed, and the comparison is silent exactly where they
show the same state: sixteen registers, PC, address register, stack depth, both timers brought up
to date, the retired count and the display hash. -/
theorem compare_silent_iff (name name' : Text) : ∃ state state', readReport r.text = some state ∧
    readReport r'.text = some state' ∧ Shows r state ∧ Shows r' state' ∧
    (compare state name state' name' = [] ↔ Alike r r') := by
  obtain ⟨state, read, shows⟩ := readReport_text r
  obtain ⟨state', read', shows'⟩ := readReport_text r'
  exact ⟨state, state', read, read', shows, shows', shows.silent_iff r r' shows' name name'⟩

/-! ## What the hash shows of a display -/

namespace Hash

/-- The low bit of the hash. -/
def low (h : BitVec 64) : Nat := h.toNat % 2

theorem low_step (h : BitVec 64) (lit : Bool) : low (step h lit) = (low h + lit.toNat) % 2 := by
  have product : (h ^^^ BitVec.ofNat 64 lit.toNat).toNat * prime.toNat % 2 ^ 64 % 2 =
      (h ^^^ BitVec.ofNat 64 lit.toNat).toNat % 2 := by
    rw [Nat.mod_mod_of_dvd _ (by decide), Nat.mul_mod, show prime.toNat % 2 = 1 from rfl, Nat.mul_one,
      Nat.mod_mod]
  have bit : (BitVec.ofNat 64 lit.toNat).toNat = lit.toNat := by cases lit <;> rfl
  unfold low step
  rw [BitVec.toNat_mul, product, BitVec.toNat_xor, bit, Nat.xor_mod_two_eq, Nat.mod_add_mod]

theorem low_foldl (h : BitVec 64) (cs : List Bool) :
    low (cs.foldl step h) = (low h + cs.count true) % 2 := by
  induction cs generalizing h with
  | nil => exact (Nat.mod_eq_of_lt (Nat.mod_lt _ (by decide))).symm
  | cons c cs ih =>
    rw [List.foldl_cons, ih, low_step, Nat.mod_add_mod]
    cases c <;> simp [Nat.add_assoc, Nat.add_comm]

theorem step_injective {h h' : BitVec 64} {lit : Bool} (same : step h lit = step h' lit) :
    h = h' := by
  have unit : prime * 14886173955864302971#64 = 1#64 := by decide
  have back := congrArg (· * 14886173955864302971#64) same
  simp only [step, BitVec.mul_assoc, unit, BitVec.mul_one] at back
  exact (BitVec.xor_left_inj _).mp back

theorem foldl_injective {h h' : BitVec 64} {cs : List Bool}
    (same : cs.foldl step h = cs.foldl step h') : h = h' := by
  induction cs generalizing h h' with
  | nil => exact same
  | cons c cs ih => exact step_injective (ih same)

theorem xor_one (x : BitVec 64) : x ^^^ 1#64 = x + 1#64 ∨ x ^^^ 1#64 = x - 1#64 := by
  rcases Nat.even_or_odd x.toNat with even | odd
  · left
    apply BitVec.eq_of_toNat_eq
    rw [BitVec.toNat_xor, BitVec.toNat_add]
    have := x.isLt
    have flipped : x.toNat ^^^ (1#64).toNat = x.toNat + 1 := Nat.xor_one_of_even even
    have fits : x.toNat + 1 < 2 ^ 64 := by
      obtain ⟨k, half⟩ := even
      omega
    rw [flipped]
    exact (Nat.mod_eq_of_lt fits).symm
  · right
    apply BitVec.eq_of_toNat_eq
    rw [BitVec.toNat_xor, BitVec.toNat_sub_of_le (by rw [BitVec.le_def]; exact odd.pos)]
    exact Nat.xor_one_of_odd odd

/-- Two neighbouring cells that both changed do not cancel: the prime is neither 1 nor -1. -/
theorem step_step_ne (h : BitVec 64) (a b : Bool) :
    step (step h a) b ≠ step (step h (!a)) (!b) := by
  intro same
  have flip (x : BitVec 64) (c : Bool) :
      x ^^^ BitVec.ofNat 64 (!c).toNat = (x ^^^ BitVec.ofNat 64 c.toNat) ^^^ 1#64 := by
    rw [BitVec.xor_assoc]
    congr 1
    cases c <;> rfl
  set y := h ^^^ BitVec.ofNat 64 a.toNat with isY
  have first : step h (!a) = (y ^^^ 1#64) * prime := by rw [step, flip]
  have second : y * prime = (y ^^^ 1#64) * prime ^^^ 1#64 := by
    have inner : step (step h a) b = step (step h (!a) ^^^ 1#64) b := by
      rw [same]
      unfold step
      rw [flip, BitVec.xor_assoc, BitVec.xor_comm (BitVec.ofNat 64 b.toNat), ← BitVec.xor_assoc]
    have outer := step_injective inner
    rwa [first] at outer
  -- Either way the prime would be 1 or -1.
  obtain up | down := xor_one y
  · obtain up' | down' := xor_one ((y ^^^ 1#64) * prime)
    · rw [up', up, prime] at second
      grind
    · rw [down', up, prime] at second
      grind
  · obtain up' | down' := xor_one ((y ^^^ 1#64) * prime)
    · rw [up', down, prime] at second
      grind
    · rw [down', down, prime] at second
      grind

end Hash

/-- The visible cells in which two displays of one size differ. -/
def differing (screen screen' : Screen) : Finset Nat :=
  (Finset.range (screen.width * screen.height)).filter fun i =>
    (screen.display i != 0#8) ≠ (screen'.display i != 0#8)

theorem low_benchDisplayHash (screen : Screen) :
    Hash.low (benchDisplayHash screen) = (1 + (visible screen).count true) % 2 :=
  Hash.low_foldl _ _

theorem differing_parity (f g : Nat → Bool) (n : Nat) :
    (((Finset.range n).filter fun i => f i ≠ g i).card +
      (((List.range n).map f).count true + ((List.range n).map g).count true)) % 2 = 0 := by
  induction n with
  | zero => rfl
  | succ n ih =>
    have fresh : n ∉ (Finset.range n).filter fun i => f i ≠ g i := fun here =>
      absurd (Finset.mem_range.mp (Finset.mem_filter.mp here).1) (Nat.lt_irrefl n)
    rw [Finset.range_add_one, Finset.filter_insert, List.range_succ, List.map_append, List.map_append,
      List.count_append, List.count_append]
    split
    · rename_i apart
      rw [Finset.card_insert_of_notMem fresh]
      cases left : f n <;> cases right : g n <;> simp_all <;> omega
    · rename_i same
      have equal : f n = g n := not_not.mp same
      rw [List.map_singleton, List.map_singleton, equal]
      omega

/-- The hash tells displays apart that differ in an odd number of visible cells, or in two
cells next to each other in its order and nowhere else. -/
theorem benchDisplayHash_ne (screen screen' : Screen) (width : screen'.width = screen.width)
    (height : screen'.height = screen.height)
    (seen : Odd (differing screen screen').card ∨ ∃ i, differing screen screen' = {i, i + 1}) :
    benchDisplayHash screen ≠ benchDisplayHash screen' := by
  intro same
  obtain odd | ⟨i, pair⟩ := seen
  · have lows := congrArg Hash.low same
    have parity := differing_parity (fun i => screen.display i != 0#8)
      (fun i => screen'.display i != 0#8) (screen.width * screen.height)
    rw [low_benchDisplayHash, low_benchDisplayHash, visible, visible, width, height] at lows
    rw [Nat.odd_iff] at odd
    unfold differing at odd
    omega
  · have inside {j : Nat} : j ∈ differing screen screen' ↔ j < screen.width * screen.height ∧
        (screen.display j != 0#8) ≠ (screen'.display j != 0#8) := by
      rw [differing, Finset.mem_filter, Finset.mem_range]
    obtain ⟨-, first⟩ := inside.mp (pair ▸ Finset.mem_insert_self i {i + 1})
    obtain ⟨bound, second⟩ := inside.mp
      (pair ▸ Finset.mem_insert_of_mem (Finset.mem_singleton_self (i + 1)))
    have others {j : Nat} (low : j < screen.width * screen.height) (away : j ≠ i)
        (away' : j ≠ i + 1) : (screen'.display j != 0#8) = (screen.display j != 0#8) := by
      by_contra apart
      have here := pair ▸ inside.mpr ⟨low, Ne.symm apart⟩
      simp [away, away'] at here
    -- The cells before and behind the two are the same, and every step is invertible.
    obtain ⟨rest, range, later⟩ : ∃ rest, List.range (screen.width * screen.height) =
        List.range i ++ i :: (i + 1) :: rest ∧
          ∀ j ∈ rest, i + 2 ≤ j ∧ j < screen.width * screen.height := by
      obtain ⟨k, count⟩ : ∃ k, screen.width * screen.height = i + (k + 1 + 1) :=
        ⟨screen.width * screen.height - i - 2, by omega⟩
      refine ⟨List.range' (i + 2) k, ?_, fun j here => ?_⟩
      · rw [count, List.range_eq_range', List.range_eq_range', ← List.range'_append_1, Nat.zero_add,
          List.range'_succ, List.range'_succ]
      · rw [List.mem_range'_1] at here
        omega
    have front : (List.range i).map (fun j => screen'.display j != 0#8) =
        (List.range i).map fun j => screen.display j != 0#8 :=
      List.map_congr_left fun j here => by
        have := List.mem_range.mp here
        exact others (by omega) (by omega) (by omega)
    have behind : rest.map (fun j => screen'.display j != 0#8) =
        rest.map fun j => screen.display j != 0#8 :=
      List.map_congr_left fun j here => by
        have := later j here
        exact others this.2 (by omega) (by omega)
    have flipped {j : Nat} (apart : (screen.display j != 0#8) ≠ (screen'.display j != 0#8)) :
        (screen'.display j != 0#8) = !(screen.display j != 0#8) := by
      cases left : screen.display j != 0#8 <;> cases right : screen'.display j != 0#8 <;> simp_all
    unfold benchDisplayHash visible Hash.cells at same
    rw [width, height, range, List.map_append, List.map_append, List.foldl_append,
      List.foldl_append, front] at same
    simp only [List.map_cons, List.foldl_cons, behind, flipped first, flipped second] at same
    exact Hash.step_step_ne _ _ _ (Hash.foldl_injective same)

theorem benchDisplayHash_ne_oneCell :
    benchDisplayHash ⟨4, 2, fun _ => 0#8⟩ ≠
      benchDisplayHash ⟨4, 2, fun i => if i = 5 then 0xFF#8 else 0#8⟩ :=
  benchDisplayHash_ne _ _ rfl rfl (.inl (by decide))

end ChipEight.Diff
