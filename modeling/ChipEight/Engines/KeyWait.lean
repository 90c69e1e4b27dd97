import ChipEight.Engines.Keys
import ChipEight.Jit.Native
import ChipEight.Library.Polling
import ChipEight.Machine.Scan
import Mathlib.Data.List.Sort

/-! The wait of `Fx0A` in every engine.

The interpreter and the JITs poll until a mask is not empty, store its highest key and clear
all sixteen. Generated programs poll until their ring shows a key, which it may before the
first poll, store the lowest one and clear no other. So the engines agree only where there is
one key to be seen.
-/

set_option autoImplicit false

namespace ChipEight

open Polling

section
variable (o : Outside) (a : Aot.Outside) (undefinedShift : Byte → BitVec 32)
  (masks : Nat → BitVec 32)

/-- The `do ... while` of `load_on_key`. Its variable starts at zero, so the test may as well
be made before the first pass. -/
def readLoop (fuel : Nat) : Option (Nat × BitVec 32) :=
  loop (fun allKeys => allKeys != 0#32) (fun polls _ => masks polls) fuel 0 0#32

/-- The `while` of `Fx0A` in `chip8_aot_f`. -/
def Aot.KeyHistory.waitLoop (h : KeyHistory) (fuel : Nat) : Option (Nat × KeyHistory) :=
  loop (fun h => h.keys &&& 0xffff#32 != 0#32) (fun polls h => h.pollKeys (masks polls)) fuel 0 h

def Outside.awaiting (mask : BitVec 32) : Outside := { o with awaited := fun _ => mask }

def Aot.Outside.waiting (polls : Nat) : Aot.Outside :=
  { a with waits := fun _ => (List.range polls).map masks }

/-- An instruction of the interpreter, with the number of polls of its wait. -/
def interpreterWait (s : State Live) (fuel : Nat) : Option (Nat × Interpreter.Result Live) :=
  (readLoop masks fuel).map fun r =>
    (r.1, Interpreter.basicBlock (livePlatform (o.awaiting r.2) undefinedShift) s)

/-- `load_on_key` of the JITs; `none` is a call of `errer`. -/
def jitWait (J : Jit.Host Live) (m : Jit.Machine Live) (fuel : Nat) :
    Option (Nat × Option (Jit.Machine Live)) :=
  (readLoop masks fuel).map fun r =>
    (r.1, m.loadOnKey { J with toPlatform := livePlatform (o.awaiting r.2) undefinedShift })

/-- Case 10 of `chip8_aot_f`. -/
def aotWait (x : Reg) (m : Aot.Machine Aot.Live) (fuel : Nat) :
    Option (Nat × Aot.Machine Aot.Live) :=
  (m.env.history.waitLoop masks fuel).map fun r =>
    (r.1, Aot.chip8AotF (Aot.liveHost (a.waiting masks r.1) undefinedShift) x 10 m)

/-- A wait that reads the quit key ends at that poll, and the run with it. -/
def Quits {α : Type} (ended : α → Prop) (wait : Nat → Option (Nat × α)) : Prop :=
  ∀ n, (masks n).getLsbD 31 = true → (∀ k ≤ n, ∀ b, ¬ Ends wait (k, b)) →
    ∃ b, Ends wait (n + 1, b) ∧ ended b

/-- The waits end after the same poll, leave the same register and the same keys to be seen,
and the quit key ends all of them. -/
structure SameWait (x : Reg) (interpreter : Nat → Option (Nat × Interpreter.Result Live))
    (jit : Nat → Option (Nat × Option (Jit.Machine Live)))
    (aot : Nat → Option (Nat × Aot.Machine Aot.Live)) : Prop where
  jitPolls : ∀ n, (∃ r, Ends interpreter (n, r)) ↔ ∃ j, Ends jit (n, j)
  aotPolls : ∀ n, (∃ r, Ends interpreter (n, r)) ↔ ∃ m, Ends aot (n, m)
  jitLeft : ∀ {k n r m}, Ends interpreter (k, r) → Ends jit (n, some m) →
    m.vm.regs x = r.2.vm.regs x ∧ pressed m.env.allKeysDown = pressed r.2.env.allKeysDown
  aotLeft : ∀ {k n r m}, Ends interpreter (k, r) → Ends aot (n, m) →
    m.vm.regs x = r.2.vm.regs x ∧ pressed m.env.history.keys = pressed r.2.env.allKeysDown
  quits : Quits masks (fun r => r.1 ≠ 0#32) interpreter
  jitQuits : Quits masks (fun m => m = none) jit
  aotQuits : Quits masks
    (fun m => ∀ later, (Aot.chip8AotRetire (Aot.liveHost later undefinedShift) m).1 = true) aot

/-- No key is to be seen when the wait begins, and the first mask that is not empty has
exactly one of the sixteen keys. -/
structure OneKey (ring : Window.Ring (BitVec 32)) : Prop where
  idle : ∀ i < inputTicks, pressed (ring.slots i) = []
  first : ∀ n, masks n ≠ 0#32 → (∀ k < n, masks k = 0#32) → (pressed (masks n)).length = 1

end

/-! ## The interpreter -/

/-- The mask of poll `k` is the first that is not empty. -/
def First (masks : Nat → BitVec 32) (k : Nat) : Prop := masks k ≠ 0#32 ∧ ∀ i < k, masks i = 0#32

theorem readLoop_ends {masks : Nat → BitVec 32} {n : Nat} {keys : BitVec 32} :
    Ends (readLoop masks) (n, keys) ↔ ∃ k, n = k + 1 ∧ keys = masks k ∧ First masks k := by
  refine ends_iff.trans ?_
  cases n with
  | zero =>
    constructor
    · rintro ⟨rfl, ready, -⟩
      exact absurd ready (by simp [after])
    · rintro ⟨k, impossible, -⟩
      cases impossible
  | succ n =>
    constructor
    · rintro ⟨rfl, ready, before⟩
      refine ⟨n, rfl, rfl, bne_iff_ne.mp ready, fun i less => ?_⟩
      exact bne_eq_false_iff_eq.mp (before (i + 1) (Nat.succ_lt_succ less))
    · rintro ⟨k, same, rfl, some, before⟩
      cases same
      refine ⟨rfl, bne_iff_ne.mpr some, fun i less => ?_⟩
      cases i with
      | zero => rfl
      | succ i => exact bne_eq_false_iff_eq.mpr (before i (Nat.lt_of_succ_lt_succ less))

theorem First.unique {masks : Nat → BitVec 32} {k n : Nat} (first : First masks k)
    (second : First masks n) : k = n := by
  rcases Nat.lt_trichotomy k n with before | same | behind
  · exact absurd (second.2 k before) first.1
  · exact same
  · exact absurd (first.2 n behind) second.1

theorem block_ldKey {E : Type} {P : Platform E} {s : State E} {x : Reg}
    (here : decode (opcodeAt s.vm.memory s.vm.programCounter) = some (.ldKey x)) :
    let scanned := Interpreter.scanKeys P x (P.awaitKeys s.env).1
      { s with env := (P.awaitKeys s.env).2 }
    (Interpreter.basicBlock P s).2.vm.regs = scanned.vm.regs ∧
      (Interpreter.basicBlock P s).2.env = scanned.env ∧
      ((Interpreter.basicBlock P s).1 ≠ 0#32 ↔ (P.awaitKeys s.env).1.getLsbD 31 = true) := by
  have notZero : opcodeAt s.vm.memory s.vm.programCounter ≠ 0#16 := by
    intro zero
    rw [zero, decode_zero] at here
    cases here
  dsimp only
  rw [basicBlock_eq, here]
  simp only [Insn.exec]
  split
  · rename_i quit
    refine ⟨rfl, rfl, ⟨fun _ => ?_, fun _ => errorCode_ne_zero notZero⟩⟩
    exact ((and_oneHot _ 31).mp (bne_iff_ne.mp quit)).2
  · rename_i plays
    refine ⟨rfl, rfl, ⟨fun wrong => absurd rfl wrong, fun bit => ?_⟩⟩
    exact absurd (bne_iff_ne.mpr ((and_oneHot _ 31).mpr ⟨by decide, bit⟩)) plays

theorem clearKey_bit (undefinedShift : Byte → BitVec 32) (e : Live) {i : Nat} (slot : i < inputTicks)
    (key b : Fin 32) :
    ((e.clearKey undefinedShift (BitVec.ofNat 8 key)).keysDown i).getLsbD b = true ↔
      (e.keysDown i).getLsbD b = true ∧ b ≠ key := by
  unfold Live.clearKey
  dsimp only
  rw [if_pos slot, shiftKey_fin]
  exact dropKey_bit key _ b

theorem cleared_bit (undefinedShift : Byte → BitVec 32) (e : Live) {n : Nat} (few : n ≤ 32)
    {i : Nat} (slot : i < inputTicks) (b : Fin 32) :
    (((List.range n).foldl (fun e k => e.clearKey undefinedShift (BitVec.ofNat 8 k)) e).keysDown
        i).getLsbD b = true ↔ (e.keysDown i).getLsbD b = true ∧ n ≤ b := by
  induction n with
  | zero => simp
  | succ n ih =>
    rw [List.range_succ, List.foldl_append, List.foldl_cons, List.foldl_nil]
    refine (clearKey_bit undefinedShift _ slot ⟨n, few⟩ b).trans ?_
    rw [ih (Nat.le_of_succ_le few)]
    constructor
    · rintro ⟨⟨bit, high⟩, other⟩
      exact ⟨bit, Nat.lt_of_le_of_ne high fun same => other (Fin.ext same.symm)⟩
    · rintro ⟨bit, high⟩
      refine ⟨⟨bit, Nat.le_of_succ_le high⟩, fun same => ?_⟩
      rw [same] at high
      exact absurd high (Nat.not_succ_le_self n)

theorem cleared_pressed (undefinedShift : Byte → BitVec 32) (e : Live) :
    pressed ((List.range 16).foldl (fun e k => e.clearKey undefinedShift (BitVec.ofNat 8 k))
      e).allKeysDown = [] := by
  apply List.eq_nil_iff_forall_not_mem.mpr
  intro b inside
  obtain ⟨small, bit⟩ := mem_pressed.mp inside
  obtain ⟨i, slot, here⟩ := (union_bit _ _ _).mp bit
  have high := (cleared_bit undefinedShift e (by decide : 16 ≤ 32) slot ⟨b, by omega⟩).mp here
  exact absurd high.2 (Nat.not_le.mpr small)

section
variable {o : Outside} {undefinedShift : Byte → BitVec 32} {masks : Nat → BitVec 32}
  {s : State Live} {x : Reg}

theorem map_ends {β : Type} {f : BitVec 32 → β} {n : Nat} {b : β} :
    Ends (fun fuel => (readLoop masks fuel).map fun r => (r.1, f r.2)) (n, b) ↔
      ∃ k, n = k + 1 ∧ First masks k ∧ b = f (masks k) := by
  refine Ends.map.trans ?_
  constructor
  · rintro ⟨⟨m, keys⟩, ended, same⟩
    obtain ⟨k, rfl, rfl, first⟩ := readLoop_ends.mp ended
    cases same
    exact ⟨k, rfl, first, rfl⟩
  · rintro ⟨k, rfl, first, rfl⟩
    exact ⟨(k + 1, masks k), readLoop_ends.mpr ⟨k, rfl, rfl, first⟩, rfl⟩

theorem interpreter_ends {n : Nat} {r : Interpreter.Result Live} :
    Ends (interpreterWait o undefinedShift masks s) (n, r) ↔ ∃ k, n = k + 1 ∧ First masks k ∧
      r = Interpreter.basicBlock (livePlatform (o.awaiting (masks k)) undefinedShift) s :=
  @map_ends masks _ (fun keys =>
    Interpreter.basicBlock (livePlatform (o.awaiting keys) undefinedShift) s) n r

theorem scanned_reg {P : Platform Live} (keys : BitVec 32) :
    (Interpreter.scanKeys P x keys s).vm.regs x =
      (pressed keys).getLast?.elim (s.vm.regs x) (BitVec.ofNat 8 ·) := by
  rw [scanKeys_vm]
  cases (pressed keys).getLast? with
  | none => rfl
  | some k => exact Function.update_self ..

theorem interpreter_left (here : decode (opcodeAt s.vm.memory s.vm.programCounter) = some (.ldKey x))
    (mask : BitVec 32) :
    let r := Interpreter.basicBlock (livePlatform (o.awaiting mask) undefinedShift) s
    r.2.vm.regs x = (pressed mask).getLast?.elim (s.vm.regs x) (BitVec.ofNat 8 ·) ∧
      pressed r.2.env.allKeysDown = [] ∧ (r.1 ≠ 0#32 ↔ mask.getLsbD 31 = true) := by
  obtain ⟨regs, env, code⟩ := @block_ldKey _ (livePlatform (o.awaiting mask) undefinedShift) _ _ here
  dsimp only at regs env code ⊢
  refine ⟨?_, ?_, code⟩
  · rw [regs]
    exact scanned_reg mask
  · rw [env, scanKeys_eq]
    exact cleared_pressed undefinedShift _

/-! ## The JITs -/

theorem jit_ends {J : Jit.Host Live} {m : Jit.Machine Live} {n : Nat}
    {j : Option (Jit.Machine Live)} :
    Ends (jitWait o undefinedShift masks J m) (n, j) ↔ ∃ k, n = k + 1 ∧ First masks k ∧
      j = m.loadOnKey { J with toPlatform := livePlatform (o.awaiting (masks k)) undefinedShift } :=
  @map_ends masks _ (fun keys =>
    m.loadOnKey { J with toPlatform := livePlatform (o.awaiting keys) undefinedShift }) n j

theorem jit_left {J : Jit.Host Live} {m : Jit.Machine Live} (here : opX m.opcode = x)
    (mask : BitVec 32) :
    let j := m.loadOnKey { J with toPlatform := livePlatform (o.awaiting mask) undefinedShift }
    (∀ m', j = some m' →
      m'.vm.regs x = (pressed mask).getLast?.elim (m.vm.regs x) (BitVec.ofNat 8 ·) ∧
        pressed m'.env.allKeysDown = []) ∧ (j = none ↔ mask.getLsbD 31 = true) := by
  dsimp only
  unfold Jit.Machine.loadOnKey
  rw [here]
  dsimp only
  split
  · rename_i quit
    refine ⟨(fun m' wrong => nomatch wrong), fun _ => ?_, fun _ => rfl⟩
    exact ((and_oneHot _ 31).mp (bne_iff_ne.mp quit)).2
  · rename_i plays
    refine ⟨fun m' same => ?_, (fun wrong => nomatch wrong), fun bit => ?_⟩
    · cases same
      refine ⟨scanned_reg mask, ?_⟩
      have cleared := cleared_pressed undefinedShift { m.env with awaits := m.env.awaits + 1 }
      unfold Jit.Machine.advance Jit.Machine.mapVM
      dsimp only
      rw [scanKeys_eq]
      exact cleared
    · exact absurd (bne_iff_ne.mpr ((and_oneHot _ 31).mpr ⟨by decide, bit⟩)) plays

end

/-! ## Generated programs -/

namespace Aot.KeyHistory

theorem keys_bit (h : KeyHistory) (b : Nat) :
    h.keys.getLsbD b = true ↔ ∃ i < inputTicks, (h.keyHistory i).getLsbD b = true :=
  union_bit _ _ _

theorem keys_ready (h : KeyHistory) : (h.keys &&& 0xffff#32 != 0#32) = true ↔ pressed h.keys ≠ [] := by
  have low : ∀ i : Fin 32, (0xffff#32).getLsbD i = decide (i.val < 16) := by decide
  rw [bne_iff_ne, not_iff_not]
  constructor
  · intro none
    apply List.eq_nil_iff_forall_not_mem.mpr
    intro i inside
    obtain ⟨small, bit⟩ := mem_pressed.mp inside
    have masked := congrArg (fun v => v.getLsbD i) none
    simp [bit, low ⟨i, by omega⟩, small] at masked
  · intro none
    apply BitVec.eq_of_getLsbD_eq
    intro i small
    rw [BitVec.getLsbD_and, low ⟨i, small⟩, BitVec.getLsbD_zero, Bool.and_eq_false_iff]
    by_cases key : i < 16
    · refine .inl (Bool.eq_false_iff.mpr fun bit => ?_)
      exact absurd (mem_pressed.mpr ⟨key, bit⟩) (none ▸ List.not_mem_nil)
    · exact .inr (decide_eq_false key)

/-- No slot has a key. -/
def Idle (h : KeyHistory) : Prop := ∀ i < inputTicks, pressed (h.keyHistory i) = []

theorem mem_keys {h : KeyHistory} {k : Nat} :
    k ∈ pressed h.keys ↔ ∃ i < inputTicks, k ∈ pressed (h.keyHistory i) := by
  simp only [mem_pressed, keys_bit]
  constructor
  · rintro ⟨small, i, slot, bit⟩
    exact ⟨i, slot, small, bit⟩
  · rintro ⟨i, slot, small, bit⟩
    exact ⟨small, i, slot, bit⟩

theorem idle_iff (h : KeyHistory) : h.Idle ↔ pressed h.keys = [] := by
  rw [List.eq_nil_iff_forall_not_mem]
  constructor
  · intro idle k inside
    obtain ⟨i, slot, here⟩ := mem_keys.mp inside
    rw [idle i slot] at here
    exact List.not_mem_nil here
  · intro none i slot
    apply List.eq_nil_iff_forall_not_mem.mpr
    exact fun k here => none k (mem_keys.mpr ⟨i, slot, here⟩)

@[simp] theorem pollKeys_slot (mask : BitVec 32) (h : KeyHistory) :
    (h.pollKeys mask).keyHistory h.keySlot = mask :=
  Function.update_self ..

theorem pollKeys_other {mask : BitVec 32} {h : KeyHistory} {i : Nat} (other : i ≠ h.keySlot) :
    (h.pollKeys mask).keyHistory i = h.keyHistory i :=
  Function.update_of_ne other ..

theorem Idle.poll {h : KeyHistory} (idle : h.Idle) {mask : BitVec 32} (none : pressed mask = []) :
    (h.pollKeys mask).Idle := by
  intro i slot
  by_cases same : i = h.keySlot
  · rw [same, pollKeys_slot]
    exact none
  · rw [pollKeys_other same]
    exact idle i slot

theorem Idle.polled {h : KeyHistory} (idle : h.Idle) (slot : h.keySlot < inputTicks)
    (mask : BitVec 32) : pressed (h.pollKeys mask).keys = pressed mask := by
  have same (k : Nat) : k ∈ pressed (h.pollKeys mask).keys ↔ k ∈ pressed mask := by
    rw [mem_keys]
    constructor
    · rintro ⟨i, inside, here⟩
      by_cases same : i = h.keySlot
      · rw [same, pollKeys_slot] at here
        exact here
      · rw [pollKeys_other same, idle i inside] at here
        exact absurd here List.not_mem_nil
    · intro here
      refine ⟨h.keySlot, slot, ?_⟩
      rw [pollKeys_slot]
      exact here
  exact (pressed_sorted _).eq_of_mem_iff (pressed_sorted _) same

/-- The ring behind polls. -/
def polled (masks : Nat → BitVec 32) (h : KeyHistory) : Nat → KeyHistory :=
  after (fun polls h => h.pollKeys (masks polls)) h

section
variable {masks : Nat → BitVec 32} {h : KeyHistory}

theorem polled_slot (slot : h.keySlot < inputTicks) (n : Nat) :
    (h.polled masks n).keySlot < inputTicks := by
  cases n with
  | zero => exact slot
  | succ n => exact Nat.mod_lt _ (by decide)

theorem Idle.polls (idle : h.Idle) {n : Nat} (none : ∀ i < n, pressed (masks i) = []) :
    (h.polled masks n).Idle := by
  induction n with
  | zero => exact idle
  | succ n ih =>
    exact (ih fun i less => none i (Nat.lt_succ_of_lt less)).poll (none n (Nat.lt_succ_self n))

/-- Poll `k` is the first that reads a key. -/
def FirstKey (masks : Nat → BitVec 32) (k : Nat) : Prop :=
  pressed (masks k) ≠ [] ∧ ∀ i < k, pressed (masks i) = []

theorem waitLoop_ends (idle : h.Idle) (slot : h.keySlot < inputTicks) {n : Nat} {t : KeyHistory} :
    Ends (h.waitLoop masks) (n, t) ↔
      ∃ k, n = k + 1 ∧ t = h.polled masks (k + 1) ∧ FirstKey masks k := by
  -- Behind polls that read no key the slots hold the keys of the last mask only.
  have found {k : Nat} (none : ∀ i < k, pressed (masks i) = []) :
      pressed (h.polled masks (k + 1)).keys = pressed (masks k) :=
    (idle.polls none).polled (polled_slot slot k) (masks k)
  refine ends_iff.trans ?_
  constructor
  · rintro ⟨rfl, ready, before⟩
    have unread (k : Nat) (less : k < n) : pressed (h.polled masks k).keys = [] := by
      by_contra some
      exact absurd ((keys_ready _).mpr some) (Bool.eq_false_iff.mp (before k less))
    have quiet (k : Nat) (less : k < n) : ∀ i < k, pressed (masks i) = [] := by
      induction k with
      | zero => exact fun i impossible => absurd impossible (Nat.not_lt_zero i)
      | succ k ih =>
        have earlier := ih (Nat.lt_of_succ_lt less)
        intro i below
        rcases Nat.lt_succ_iff_lt_or_eq.mp below with below | rfl
        · exact earlier i below
        · exact (found earlier).symm.trans (unread (i + 1) less)
    -- Without a poll there is nothing to be seen yet.
    cases n with
    | zero => exact absurd ((idle_iff h).mp idle) ((keys_ready h).mp ready)
    | succ n =>
      have earlier := quiet n (Nat.lt_succ_self n)
      refine ⟨n, rfl, rfl, ?_, earlier⟩
      rw [← found earlier]
      exact (keys_ready _).mp ready
  · rintro ⟨k, rfl, rfl, here, none⟩
    refine ⟨rfl, (keys_ready _).mpr ?_, fun i less => ?_⟩
    · rw [← found none] at here
      exact here
    · have still := idle.polls fun j below => none j (Nat.lt_of_lt_of_le below (Nat.le_of_lt_succ less))
      refine Bool.eq_false_iff.mpr fun ready => ?_
      exact (keys_ready _).mp ready ((idle_iff _).mp still)

theorem waitLoop_awake (awake : ¬ h.Idle) : Ends (h.waitLoop masks) (0, h) := by
  refine ends_iff.mpr ⟨rfl, (keys_ready h).mpr ?_, fun k impossible => absurd impossible (Nat.not_lt_zero k)⟩
  exact fun none => awake ((idle_iff h).mpr none)

theorem foldl_polled (n : Nat) :
    ((List.range n).map masks).foldl (fun h mask => h.pollKeys mask) h = h.polled masks n := by
  induction n with
  | zero => rfl
  | succ n ih =>
    rw [List.range_succ, List.map_append, List.foldl_append, ih]
    rfl

end

end Aot.KeyHistory

theorem scanDown_eq {E : Type} {H : Aot.Host E} {m : Aot.Machine E} (reads : (H.keys m.env).2 = m.env)
    (x : Reg) (keys : List Nat) :
    Aot.scanDown H x keys m =
      (keys.filter fun i => (H.keys m.env).1 &&& 1#32 <<< i != 0#32).head?.elim m fun k =>
        { m with
          vm := m.vm.setReg x (BitVec.ofNat 8 k)
          env := H.clearKey (BitVec.ofNat 8 k) m.env } := by
  induction keys with
  | nil => rfl
  | cons k rest ih =>
    rw [Aot.scanDown, List.filter_cons]
    rw [reads]
    split
    · rfl
    · exact ih

section
variable {a : Aot.Outside} {undefinedShift : Byte → BitVec 32} {masks : Nat → BitVec 32} {x : Reg}
  {m : Aot.Machine Aot.Live}

theorem f_waited {n k : Nat} {rest : List Nat}
    (seen : pressed (m.env.history.polled masks n).keys = k :: rest) :
    let left := Aot.chip8AotF (Aot.liveHost (a.waiting masks n) undefinedShift) x 10 m
    left.vm.regs x = BitVec.ofNat 8 k ∧ left.env.history =
      (m.env.history.polled masks n).clearKey undefinedShift (BitVec.ofNat 8 k) := by
  dsimp only
  have awaited : ((Aot.liveHost (a.waiting masks n) undefinedShift).awaitKeys m.env).history =
      m.env.history.polled masks n := Aot.KeyHistory.foldl_polled n
  unfold Aot.chip8AotF
  dsimp only
  rw [scanDown_eq rfl]
  dsimp only
  have keys : ((Aot.liveHost (a.waiting masks n) undefinedShift).keys
      ((Aot.liveHost (a.waiting masks n) undefinedShift).awaitKeys m.env)).1 =
      (m.env.history.polled masks n).keys := congrArg Aot.KeyHistory.keys awaited
  rw [keys, show (List.range 16).filter _ = pressed _ from rfl, seen]
  refine ⟨Function.update_self .., ?_⟩
  rw [← awaited]
  rfl

theorem aot_ends (idle : m.env.history.Idle) (slot : m.env.history.keySlot < inputTicks) {n : Nat}
    {left : Aot.Machine Aot.Live} :
    Ends (aotWait a undefinedShift masks x m) (n, left) ↔
      ∃ k, n = k + 1 ∧ Aot.KeyHistory.FirstKey masks k ∧
        left = Aot.chip8AotF (Aot.liveHost (a.waiting masks (k + 1)) undefinedShift) x 10 m := by
  refine Ends.map.trans ?_
  constructor
  · rintro ⟨⟨n, t⟩, ended, same⟩
    obtain ⟨k, rfl, rfl, first⟩ := (Aot.KeyHistory.waitLoop_ends idle slot).mp ended
    cases same
    exact ⟨k, rfl, first, rfl⟩
  · rintro ⟨k, rfl, first, rfl⟩
    exact ⟨_, (Aot.KeyHistory.waitLoop_ends idle slot).mpr ⟨k, rfl, rfl, first⟩, rfl⟩

theorem service_history (later : Aot.Outside) (e : Aot.Live) :
    ((Aot.liveHost later undefinedShift).serviceTimers e).history = e.history := by
  unfold Aot.liveHost Aot.Live.serviceTimers
  dsimp only
  split <;> rfl

theorem cleared_keys {h : Aot.KeyHistory} {key : Nat} (seen : pressed h.keys = [key]) :
    pressed (h.clearKey undefinedShift (BitVec.ofNat 8 key)).keys = [] := by
  have small : key < 16 := (mem_pressed.mp (seen ▸ List.mem_singleton_self key)).1
  apply List.eq_nil_iff_forall_not_mem.mpr
  intro b inside
  obtain ⟨i, slot, here⟩ := Aot.KeyHistory.mem_keys.mp inside
  obtain ⟨low, bit⟩ := mem_pressed.mp here
  unfold Aot.KeyHistory.clearKey at bit
  dsimp only at bit
  rw [if_pos slot] at bit
  have dropped := (dropKey_bit ⟨key, by omega⟩ (h.keyHistory i) ⟨b, by omega⟩).mp
  rw [dropKey, ← shiftKey_fin undefinedShift] at dropped
  obtain ⟨before, other⟩ := dropped bit
  have there : b ∈ pressed h.keys :=
    Aot.KeyHistory.mem_keys.mpr ⟨i, slot, mem_pressed.mpr ⟨low, before⟩⟩
  rw [seen, List.mem_singleton] at there
  exact other (Fin.ext there)

theorem retire_quits (later : Aot.Outside) {i : Nat} (slot : i < inputTicks)
    (other : i ≠ m.env.history.keySlot) (bit : (m.env.history.keyHistory i).getLsbD 31 = true) :
    (Aot.chip8AotRetire (Aot.liveHost later undefinedShift) m).1 = true := by
  have kept : ((Aot.liveHost later undefinedShift).pollKeysIfDue m.env).history.keyHistory i =
      m.env.history.keyHistory i := by
    unfold Aot.liveHost Aot.Live.pollKeysIfDue
    dsimp only
    split
    · exact Aot.KeyHistory.pollKeys_other other
    · rfl
  -- The poll that may be due writes another slot.
  rw [← kept] at bit
  unfold Aot.chip8AotRetire
  dsimp only
  apply bne_iff_ne.mpr
  apply (and_oneHot _ 31).mpr
  refine ⟨by decide, (Aot.KeyHistory.keys_bit _ 31).mpr ⟨i, slot, ?_⟩⟩
  split
  · rw [service_history]
    exact bit
  · exact bit

theorem waited_quits (slot : m.env.history.keySlot < inputTicks) {k key : Nat} (small : key < 16)
    {left : Aot.Machine Aot.Live} (history : left.env.history =
      (m.env.history.polled masks (k + 1)).clearKey undefinedShift (BitVec.ofNat 8 key))
    (quit : (masks k).getLsbD 31 = true) (later : Aot.Outside) :
    (Aot.chip8AotRetire (Aot.liveHost later undefinedShift) left).1 = true := by
  have inRing : (m.env.history.polled masks k).keySlot < inputTicks :=
    Aot.KeyHistory.polled_slot slot k
  have next : (m.env.history.polled masks (k + 1)).keySlot =
      ((m.env.history.polled masks k).keySlot + 1) % inputTicks := rfl
  have read : (m.env.history.polled masks (k + 1)).keyHistory (m.env.history.polled masks k).keySlot =
      masks k := Aot.KeyHistory.pollKeys_slot _ _
  refine retire_quits later inRing ?_ ?_
  · rw [history]
    unfold Aot.KeyHistory.clearKey
    dsimp only
    rw [next]
    have ten : inputTicks = 10 := rfl
    rw [ten] at inRing ⊢
    omega
  · rw [history]
    unfold Aot.KeyHistory.clearKey
    dsimp only
    rw [if_pos inRing, read]
    have dropped := (dropKey_bit ⟨key, by omega⟩ (masks k) ⟨31, by decide⟩).mpr
    rw [dropKey, ← shiftKey_fin undefinedShift] at dropped
    refine dropped ⟨quit, fun same => ?_⟩
    have number := congrArg Fin.val same
    dsimp only at number
    omega

end

/-! ## All engines -/

theorem exists_first {masks : Nat → BitVec 32} {n : Nat} (some : masks n ≠ 0#32) :
    ∃ k ≤ n, First masks k := by
  have found : ∃ k, masks k ≠ 0#32 := ⟨n, some⟩
  refine ⟨Nat.find found, Nat.find_min' found some, Nat.find_spec found, fun i less => ?_⟩
  exact not_not.mp (Nat.find_min found less)

theorem pressed_zero : pressed 0#32 = [] := by decide

theorem firstKey_iff {masks : Nat → BitVec 32}
    (one : ∀ n, First masks n → (pressed (masks n)).length = 1) (k : Nat) :
    Aot.KeyHistory.FirstKey masks k ↔ First masks k := by
  constructor
  · rintro ⟨here, none⟩
    have some : masks k ≠ 0#32 := fun zero => here (zero ▸ pressed_zero)
    obtain ⟨j, before, first⟩ := exists_first some
    rcases Nat.lt_or_eq_of_le before with before | rfl
    · have single := one j first
      rw [none j before] at single
      cases single
    · exact first
  · intro first
    refine ⟨fun none => ?_, fun i less => ?_⟩
    · have single := one k first
      rw [none] at single
      cases single
    · rw [first.2 i less]
      exact pressed_zero

theorem quits_first {α : Type} {ended : α → Prop} {wait : Nat → Option (Nat × α)}
    {masks : Nat → BitVec 32} (ends : ∀ k, First masks k → ∃ b, Ends wait (k + 1, b) ∧
      ((masks k).getLsbD 31 = true → ended b)) : Quits masks ended wait := by
  intro n quit waits
  have some : masks n ≠ 0#32 := by
    intro zero
    rw [zero] at quit
    cases quit
  obtain ⟨k, before, first⟩ := exists_first some
  obtain ⟨b, ended, isOver⟩ := ends k first
  rcases Nat.lt_or_eq_of_le before with before | rfl
  · exact absurd ended (waits (k + 1) before b)
  · exact ⟨b, ended, isOver quit⟩

theorem single_key {keys : BitVec 32} {k : Nat} {rest : List Nat} (seen : pressed keys = k :: rest)
    {v : Byte} (same : (pressed keys).getLast?.elim v (BitVec.ofNat 8 ·) = BitVec.ofNat 8 k) :
    rest = [] := by
  have sorted := pressed_sorted keys
  rcases List.eq_nil_or_concat' rest with none | ⟨between, last, rfl⟩
  · exact none
  · have small {i : Nat} (inside : i ∈ pressed keys) : i < 16 := (mem_pressed.mp inside).1
    rw [seen] at sorted same small
    rw [← List.cons_append, List.getLast?_concat, Option.elim_some] at same
    have number := congrArg BitVec.toNat same
    have lastSmall : last < 16 := small (by simp)
    have firstSmall : k < 16 := small (by simp)
    have less : k < last := List.rel_of_pairwise_cons sorted (by simp)
    rw [BitVec.toNat_ofNat, BitVec.toNat_ofNat] at number
    omega

section
variable {o : Outside} {a : Aot.Outside} {undefinedShift : Byte → BitVec 32}
  {masks : Nat → BitVec 32} {J : Jit.Host Live} {s : State Live} {j : Jit.Machine Live}
  {m : Aot.Machine Aot.Live} {x : Reg}

/-- A key that is there already ends only the wait of the generated program, and of several
keys it takes another one. -/
theorem one_of_same (here : decode (opcodeAt s.vm.memory s.vm.programCounter) = some (.ldKey x))
    (slot : m.env.history.keySlot < inputTicks)
    (same : SameWait undefinedShift masks x (interpreterWait o undefinedShift masks s)
      (jitWait o undefinedShift masks J j) (aotWait a undefinedShift masks x m)) :
    m.env.history.Idle ∧ ∀ n, First masks n → (pressed (masks n)).length = 1 := by
  have idle : m.env.history.Idle := by
    by_contra awake
    have ended : Ends (m.env.history.waitLoop masks) (0, m.env.history) :=
      Aot.KeyHistory.waitLoop_awake awake
    obtain ⟨r, there⟩ := (same.aotPolls 0).mpr ⟨_, Ends.map.mpr ⟨_, ended, rfl⟩⟩
    obtain ⟨k, impossible, -⟩ := interpreter_ends.mp there
    cases impossible
  refine ⟨idle, fun n first => ?_⟩
  -- Both waits end behind poll `n`, the one with its highest key, the other with its lowest.
  have there := (@interpreter_ends o undefinedShift masks s (n + 1) _).mpr ⟨n, rfl, first, rfl⟩
  obtain ⟨left, ended⟩ := (same.aotPolls (n + 1)).mp ⟨_, there⟩
  obtain ⟨k, number, firstKey, rfl⟩ := (aot_ends idle slot).mp ended
  cases number
  have seen : pressed (m.env.history.polled masks (n + 1)).keys = pressed (masks n) :=
    (idle.polls firstKey.2).polled (Aot.KeyHistory.polled_slot slot n) (masks n)
  have stored := (same.aotLeft there ended).1
  rw [(interpreter_left here (masks n)).1] at stored
  cases keys : pressed (masks n) with
  | nil => exact absurd keys firstKey.1
  | cons k rest =>
    rw [(f_waited (seen.trans keys)).1] at stored
    rw [single_key keys stored.symm]
    rfl

theorem same_of_one (here : decode (opcodeAt s.vm.memory s.vm.programCounter) = some (.ldKey x))
    (vm : j.vm = s.vm) (slot : m.env.history.keySlot < inputTicks) (idle : m.env.history.Idle)
    (one : ∀ n, First masks n → (pressed (masks n)).length = 1) :
    SameWait undefinedShift masks x (interpreterWait o undefinedShift masks s)
      (jitWait o undefinedShift masks J j) (aotWait a undefinedShift masks x m) := by
  have operand : opX j.opcode = x := by
    rw [Jit.Machine.opcode, vm]
    exact (decode_operands here).symm
  have first (k : Nat) := firstKey_iff one k
  -- what a generated program has behind the poll that reads the one key
  have waited {k : Nat} (here : First masks k) : ∃ key < 16, pressed (masks k) = [key] ∧
      pressed (m.env.history.polled masks (k + 1)).keys = [key] := by
    obtain ⟨key, single⟩ := List.length_eq_one_iff.mp (one k here)
    refine ⟨key, (mem_pressed.mp (single ▸ List.mem_singleton_self key)).1, single, ?_⟩
    exact ((idle.polls ((first k).mpr here).2).polled (Aot.KeyHistory.polled_slot slot k)
      (masks k)).trans single
  constructor
  case jitPolls =>
    intro n
    constructor
    · rintro ⟨r, ended⟩
      obtain ⟨k, number, here, -⟩ := interpreter_ends.mp ended
      exact ⟨_, jit_ends.mpr ⟨k, number, here, rfl⟩⟩
    · rintro ⟨j, ended⟩
      obtain ⟨k, number, here, -⟩ := jit_ends.mp ended
      exact ⟨_, interpreter_ends.mpr ⟨k, number, here, rfl⟩⟩
  case aotPolls =>
    intro n
    constructor
    · rintro ⟨r, ended⟩
      obtain ⟨k, number, here, -⟩ := interpreter_ends.mp ended
      exact ⟨_, (aot_ends idle slot).mpr ⟨k, number, (first k).mpr here, rfl⟩⟩
    · rintro ⟨left, ended⟩
      obtain ⟨k, number, here, -⟩ := (aot_ends idle slot).mp ended
      exact ⟨_, interpreter_ends.mpr ⟨k, number, (first k).mp here, rfl⟩⟩
  case jitLeft =>
    intro k n r left ran ended
    obtain ⟨k, -, first, rfl⟩ := interpreter_ends.mp ran
    obtain ⟨k', -, there, result⟩ := jit_ends.mp ended
    cases first.unique there
    obtain ⟨reg, keys⟩ := (jit_left operand (masks k)).1 _ result.symm
    obtain ⟨reg', keys', -⟩ := @interpreter_left o undefinedShift s x here (masks k)
    rw [vm] at reg
    exact ⟨reg.trans reg'.symm, keys.trans keys'.symm⟩
  case aotLeft =>
    intro k n r left ran ended
    obtain ⟨k, -, found, rfl⟩ := interpreter_ends.mp ran
    obtain ⟨k', -, there, rfl⟩ := (aot_ends idle slot).mp ended
    cases found.unique ((first k').mp there)
    obtain ⟨key, -, single, seen⟩ := waited found
    obtain ⟨reg, history⟩ := @f_waited a undefinedShift masks x m _ _ _ seen
    obtain ⟨reg', keys', -⟩ := @interpreter_left o undefinedShift s x here (masks k)
    constructor
    · rw [reg, reg', single]
      rfl
    · rw [history, cleared_keys seen, keys']
  case quits =>
    apply quits_first
    intro k first
    exact ⟨_, interpreter_ends.mpr ⟨k, rfl, first, rfl⟩, (interpreter_left here (masks k)).2.2.mpr⟩
  case jitQuits =>
    apply quits_first
    intro k first
    exact ⟨_, jit_ends.mpr ⟨k, rfl, first, rfl⟩, (jit_left operand (masks k)).2.mpr⟩
  case aotQuits =>
    apply quits_first
    intro k found
    obtain ⟨key, small, -, seen⟩ := waited found
    have history := (@f_waited a undefinedShift masks x m _ _ _ seen).2
    refine ⟨_, (aot_ends idle slot).mpr ⟨k, rfl, (first k).mpr found, rfl⟩, ?_⟩
    intro quit later
    apply @waited_quits undefinedShift masks m slot k key small
    · exact history
    · exact quit

end

/-- Every engine ends its wait for a key after the same poll and with the same keys, if and
only if there is one key to be seen. -/
theorem key_wait (o : Outside) (a : Aot.Outside) (undefinedShift : Byte → BitVec 32)
    (masks : Nat → BitVec 32) (J : Jit.Host Live) (codeBytes : Addr → Bool) (smcPending : Bool)
    (retired : BitVec 32) (r : Aot.Live) {vm : VM} {e : Live} {x : Reg}
    (here : decode (opcodeAt vm.memory vm.programCounter) = some (.ldKey x))
    (slot : e.interruptCount < inputTicks) :
    SameWait undefinedShift masks x (interpreterWait o undefinedShift masks ⟨vm, e⟩)
        (jitWait o undefinedShift masks J ⟨vm, e, codeBytes, smcPending⟩)
        (aotWait a undefinedShift masks x
          ⟨vm, retired, { r with history := ⟨e.keysDown, e.interruptCount⟩ }⟩) ↔
      OneKey masks e.ring := by
  let m : Aot.Machine Aot.Live := ⟨vm, retired, { r with history := ⟨e.keysDown, e.interruptCount⟩ }⟩
  let j : Jit.Machine Live := ⟨vm, e, codeBytes, smcPending⟩
  constructor
  · intro same
    obtain ⟨idle, one⟩ := @one_of_same o a undefinedShift masks J ⟨vm, e⟩ j m x here slot same
    exact ⟨idle, fun n some none => one n ⟨some, none⟩⟩
  · intro one
    exact @same_of_one o a undefinedShift masks J ⟨vm, e⟩ j m x here rfl slot one.idle
      fun n first => one.first n first.1 first.2

/-- A JIT in which nothing is due. -/
def quietJit : Jit.Host Live :=
  { livePlatform quietOutside (fun _ => 0#32) with
    checkInterrupt := id
    programOver := fun _ => false
    retire := fun _ => id
    safepoint := id
    idleWait := id }

def quietAot : Aot.Outside :=
  ⟨fun _ => 0, fun _ => 0#32, fun _ => 0, fun _ => [], fun _ => 1, fun _ => 0#32⟩

/-- `LD V0, K`, where one key is pressed at the second poll. -/
theorem key_wait_pressed :
    SameWait (fun _ => 0#32) (fun n => if n = 1 then 1#32 <<< 5 else 0#32) 0#4
      (interpreterWait quietOutside (fun _ => 0#32) (fun n => if n = 1 then 1#32 <<< 5 else 0#32)
        ⟨VM.boot [0xf0#8, 0x0a#8], .boot 0⟩)
      (jitWait quietOutside (fun _ => 0#32) (fun n => if n = 1 then 1#32 <<< 5 else 0#32) quietJit
        ⟨VM.boot [0xf0#8, 0x0a#8], .boot 0, fun _ => false, false⟩)
      (aotWait quietAot (fun _ => 0#32) (fun n => if n = 1 then 1#32 <<< 5 else 0#32) 0#4
        ⟨VM.boot [0xf0#8, 0x0a#8], 0#32, .boot 0⟩) := by
  refine (key_wait quietOutside quietAot (fun _ => 0#32) _ quietJit (fun _ => false) false 0#32
    (.boot 0) (by decide) (by decide)).mpr ⟨by decide, fun n some none => ?_⟩
  by_cases second : n = 1
  · rw [if_pos second]
    decide
  · exact absurd (if_neg second) some

/-- The quit key alone ends the wait of the interpreter, but not that of a generated program. -/
theorem key_wait_quit :
    ¬ SameWait (fun _ => 0#32) (fun n => if n = 0 then quitBit else 0#32) 0#4
      (interpreterWait quietOutside (fun _ => 0#32) (fun n => if n = 0 then quitBit else 0#32)
        ⟨VM.boot [0xf0#8, 0x0a#8], .boot 0⟩)
      (jitWait quietOutside (fun _ => 0#32) (fun n => if n = 0 then quitBit else 0#32) quietJit
        ⟨VM.boot [0xf0#8, 0x0a#8], .boot 0, fun _ => false, false⟩)
      (aotWait quietAot (fun _ => 0#32) (fun n => if n = 0 then quitBit else 0#32) 0#4
        ⟨VM.boot [0xf0#8, 0x0a#8], 0#32, .boot 0⟩) := by
  intro same
  have one := (one_of_same (by decide) (by decide) same).2 0
    ⟨by decide, fun i impossible => absurd impossible (Nat.not_lt_zero i)⟩
  revert one
  decide

end ChipEight
