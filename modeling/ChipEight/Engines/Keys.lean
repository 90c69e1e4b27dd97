import ChipEight.Aot.Keys
import ChipEight.Library.Window

/-! The keys a program can see.

The interpreter and the JITs keep the masks of the last interrupts in one ring, and
generated programs keep those of the last polls in another. Both are windows on the history
of what was read and cleared.
-/

set_option autoImplicit false

namespace ChipEight

open Window (Event)

/-! ## Masks -/

theorem union_bit (masks : Nat → BitVec 32) (n b : Nat) :
    ((List.range n).foldl (fun all i => all ||| masks i) 0#32).getLsbD b = true ↔
      ∃ i < n, (masks i).getLsbD b = true := by
  induction n with
  | zero => simp
  | succ n ih =>
    rw [List.range_succ, List.foldl_append, List.foldl_cons, List.foldl_nil, BitVec.getLsbD_or,
      Bool.or_eq_true, ih]
    constructor
    · rintro (⟨i, small, here⟩ | here)
      · exact ⟨i, Nat.lt_succ_of_lt small, here⟩
      · exact ⟨n, Nat.lt_succ_self n, here⟩
    · rintro ⟨i, small, here⟩
      rcases Nat.lt_succ_iff_lt_or_eq.mp small with before | rfl
      · exact .inl ⟨i, before, here⟩
      · exact .inr here

/-- A mask without a key. -/
def dropKey (key : Fin 32) (mask : BitVec 32) : BitVec 32 := mask &&& ~~~(1#32 <<< key.val)

theorem oneHot_bit {i b : Nat} (small : b < 32) : (1#32 <<< i).getLsbD b = decide (b = i) := by
  rw [BitVec.getLsbD_shiftLeft, BitVec.getLsbD_one]
  by_cases low : b < i
  · simp [low, Nat.ne_of_lt low]
  · have same : decide (b - i = 0) = decide (b = i) := by
      apply decide_eq_decide.mpr
      omega
    simp [small, low, same]

theorem dropKey_bit (key : Fin 32) (mask : BitVec 32) (b : Fin 32) :
    (dropKey key mask).getLsbD b = true ↔ mask.getLsbD b = true ∧ b ≠ key := by
  rw [dropKey, BitVec.getLsbD_and, BitVec.getLsbD_not, oneHot_bit b.isLt, Bool.and_eq_true]
  simp [Fin.ext_iff]

theorem dropKey_zero (key : Fin 32) : dropKey key 0#32 = 0#32 := BitVec.zero_and

theorem shiftKey_fin (undefinedShift : Byte → BitVec 32) (key : Fin 32) :
    shiftKey undefinedShift (BitVec.ofNat 8 key) = 1#32 <<< key.val := by
  have number : (BitVec.ofNat 8 key.val).toNat = key.val := by
    rw [BitVec.toNat_ofNat]
    omega
  unfold shiftKey
  rw [number, if_pos]
  show (BitVec.ofNat 8 key.val).toNat < 32
  omega

/-! ## Calls -/

/-- An interrupt with the tick and the mask the host returns, or `clear_key` of a key its
shift is defined for. -/
inductive KeyCall where
  | interrupt (tick : Int) (keys : BitVec 32)
  | clearKey (key : Fin 32)

def KeyCall.event : KeyCall → Event (BitVec 32) (Fin 32)
  | .interrupt _ keys => .read keys
  | .clearKey key => .clear key

/-- A host that answers one interrupt. -/
def answering (tick : Int) (keys : BitVec 32) : Outside :=
  { quietOutside with ticks := fun _ => tick, keys := fun _ => keys }

section
variable (undefinedShift : Byte → BitVec 32)

def Live.call (e : Live) : KeyCall → Live
  | .interrupt tick keys => e.interrupt (answering tick keys)
  | .clearKey key => e.clearKey undefinedShift (BitVec.ofNat 8 key)

/-- The interactive build behind a list of calls, the latest first. -/
def Live.calls (tick : Int) : List KeyCall → Live
  | [] => .boot tick
  | c :: earlier => (Live.calls tick earlier).call undefinedShift c

def Aot.KeyHistory.call (h : KeyHistory) : KeyCall → KeyHistory
  | .interrupt _ keys => h.pollKeys keys
  | .clearKey key => h.clearKey undefinedShift (BitVec.ofNat 8 key)

/-- A generated program behind them. -/
def Aot.KeyHistory.calls : List KeyCall → KeyHistory
  | [] => .start
  | c :: earlier => (Aot.KeyHistory.calls earlier).call undefinedShift c

/-! ## Windows -/

def Live.ring (e : Live) : Window.Ring (BitVec 32) := ⟨e.keysDown, e.interruptCount⟩

def Aot.KeyHistory.ring (h : KeyHistory) : Window.Ring (BitVec 32) := ⟨h.keyHistory, h.keySlot⟩

theorem interrupt_slots (o : Outside) (e : Live) :
    (e.interrupt o).ring = e.ring.record inputTicks (o.keys e.serviced) := by
  unfold Live.interrupt Live.countTimers
  split <;> rfl

theorem clearKey_ring (key : Fin 32) (e : Live) :
    (e.clearKey undefinedShift (BitVec.ofNat 8 key)).ring =
      e.ring.change inputTicks (dropKey key) := by
  unfold Live.clearKey Live.ring Window.Ring.change dropKey
  rw [shiftKey_fin]

theorem historyClear_ring (key : Fin 32) (h : Aot.KeyHistory) :
    (h.clearKey undefinedShift (BitVec.ofNat 8 key)).ring =
      h.ring.change inputTicks (dropKey key) := by
  unfold Aot.KeyHistory.clearKey Aot.KeyHistory.ring Window.Ring.change dropKey
  rw [shiftKey_fin]

theorem live_ring (tick : Int) (calls : List KeyCall) :
    (Live.calls undefinedShift tick calls).ring =
      Window.Ring.run dropKey inputTicks 0#32 (calls.map KeyCall.event) := by
  induction calls with
  | nil => rfl
  | cons c earlier ih =>
    cases c with
    | interrupt tick keys =>
      rw [List.map_cons, KeyCall.event, Window.Ring.run, ← ih]
      exact interrupt_slots (answering tick keys) _
    | clearKey key =>
      rw [List.map_cons, KeyCall.event, Window.Ring.run, ← ih]
      exact clearKey_ring undefinedShift key _

theorem history_ring (calls : List KeyCall) :
    (Aot.KeyHistory.calls undefinedShift calls).ring =
      Window.Ring.run dropKey inputTicks 0#32 (calls.map KeyCall.event) := by
  induction calls with
  | nil => rfl
  | cons c earlier ih =>
    cases c with
    | interrupt tick keys =>
      rw [List.map_cons, KeyCall.event, Window.Ring.run, ← ih]
      rfl
    | clearKey key =>
      rw [List.map_cons, KeyCall.event, Window.Ring.run, ← ih]
      exact historyClear_ring undefinedShift key _

/-- How many interrupts are among some calls. -/
def interrupts : List KeyCall → Nat
  | [] => 0
  | .interrupt _ _ :: rest => interrupts rest + 1
  | .clearKey _ :: rest => interrupts rest

/-- One of the last ten interrupts, fewer at the start, read the key, and it was not
cleared since. -/
def ReadLately (calls : List KeyCall) (key : Fin 32) : Prop :=
  ∃ later tick keys earlier, calls = later ++ .interrupt tick keys :: earlier ∧
    interrupts later < inputTicks ∧ keys.getLsbD key = true ∧ .clearKey key ∉ later

theorem reads_event (calls : List KeyCall) :
    Window.reads (calls.map KeyCall.event) = interrupts calls := by
  induction calls with
  | nil => rfl
  | cons c rest ih => cases c <;> simp [KeyCall.event, Window.reads, interrupts, ih]

theorem clear_event {calls : List KeyCall} {key : Fin 32} :
    Event.clear key ∈ calls.map KeyCall.event ↔ KeyCall.clearKey key ∈ calls := by
  rw [List.mem_map]
  constructor
  · rintro ⟨c, inside, same⟩
    cases c with
    | interrupt tick keys => cases same
    | clearKey k =>
      cases same
      exact inside
  · exact fun inside => ⟨_, inside, rfl⟩

theorem window_calls (calls : List KeyCall) (key : Fin 32) :
    (∃ i < inputTicks, ((Window.Ring.run dropKey inputTicks 0#32 (calls.map KeyCall.event)).slots i).getLsbD
        key = true) ↔ ReadLately calls key := by
  have window := @Window.window_iff (BitVec 32) (Fin 32) dropKey
    (fun mask k => mask.getLsbD k = true) inputTicks 0#32 (by decide) (fun k => by simp) dropKey_zero
    dropKey_bit key (calls.map KeyCall.event)
  refine window.trans ?_
  constructor
  · rintro ⟨later, keys, earlier, split, few, here, kept⟩
    obtain ⟨later', rest, rfl, rfl, behind⟩ := List.map_eq_append_iff.mp split
    obtain ⟨c, earlier', rfl, same, rfl⟩ := List.map_eq_cons_iff.mp behind
    cases c with
    | clearKey k => cases same
    | interrupt tick keys' =>
      cases same
      exact ⟨later', tick, keys, earlier', rfl, reads_event later' ▸ few, here,
        fun inside => kept (clear_event.mpr inside)⟩
  · rintro ⟨later, tick, keys, earlier, rfl, few, here, kept⟩
    exact ⟨later.map KeyCall.event, keys, earlier.map KeyCall.event, by simp [KeyCall.event],
      (reads_event later).symm ▸ few, here, fun inside => kept (clear_event.mp inside)⟩

/-- A key is seen as long as it was read lately and not cleared since, and no longer. -/
theorem key_window (tick : Int) (calls : List KeyCall) (key : Fin 32) :
    ((Live.calls undefinedShift tick calls).allKeysDown.getLsbD key = true ↔
        ReadLately calls key) ∧
      ((Aot.KeyHistory.calls undefinedShift calls).keys.getLsbD key = true ↔
        ReadLately calls key) := by
  constructor
  · refine (union_bit _ _ _).trans (Iff.trans ?_ (window_calls calls key))
    rw [← live_ring undefinedShift tick]
    rfl
  · refine (union_bit _ _ _).trans (Iff.trans ?_ (window_calls calls key))
    rw [← history_ring undefinedShift]
    rfl

end

end ChipEight
