import ChipEight.Jit.Elision
import ChipEight.Jit.Plain
import ChipEight.Machine.Scan

/-! Native code that is told other things.

The host answers in the order it is asked, so a run only depends on the answers it has come to. Code
without its waits, told when to look for signals and what to find then, does what the code with them
does, on key masks that differ in the quit key.
-/

set_option autoImplicit false

namespace ChipEight

/-! ## Answers in order -/

/-- A sequence goes on with a list from its `n`-th place. -/
def Supplies {A : Type} (f : Nat → A) (n : Nat) (l : List A) : Prop :=
  ∀ i v, l[i]? = some v → f (n + i) = v

theorem supplies_append {A : Type} {f : Nat → A} {n : Nat} {l l' : List A}
    (both : Supplies f n (l ++ l')) : Supplies f n l ∧ Supplies f (n + l.length) l' := by
  constructor
  · intro i v here
    have small := (List.getElem?_eq_some_iff.mp here).1
    exact both i v (List.getElem?_append_left small ▸ here)
  · intro i v here
    rw [Nat.add_assoc]
    apply both
    rw [List.getElem?_append_right (Nat.le_add_right _ _), Nat.add_sub_cancel_left]
    exact here

theorem supplies_getD {A : Type} (l : List A) (v : A) : Supplies (fun i => l.getD i v) 0 l := by
  intro i w here
  show l.getD (0 + i) v = w
  rw [Nat.zero_add, List.getD_eq_getElem?_getD, here]
  rfl

/-- Hosts that differ in their ticks and key masks. -/
structure Retells (o o' : Outside) : Prop where
  rand : o'.rand = o.rand
  awaited : o'.awaited = o.awaited
  frames : o'.frames = o.frames

namespace Jit

section
variable (o : Outside) (undefinedShift : Byte → BitVec 32)

/-- Some answers, which take the host from `e` to `e'`, make `run` return `x`. -/
def Yields {X : Type} (e e' : JitLive) (run : Host JitLive → Option X) (x : X) : Prop :=
  ∃ (looks : List Bool) (services : List (Int × BitVec 32)),
    e'.tested = e.tested + looks.length ∧
    e'.live.serviced = e.live.serviced + services.length ∧
    ∀ o' signals, Retells o o' → Supplies signals.pending e.tested looks →
      Supplies (fun k => (o'.ticks k, o'.keys k)) e.live.serviced services →
        run (liveHost o' signals undefinedShift) = some x

variable {o} {undefinedShift}

section
variable {X Y : Type} {e e' e'' : JitLive} {x : X} {y : Y}

/-- Nothing is asked. -/
theorem Yields.unasked {run : Host JitLive → Option X} (tested : e'.tested = e.tested)
    (serviced : e'.live.serviced = e.live.serviced)
    (ran : ∀ o' signals, Retells o o' → run (liveHost o' signals undefinedShift) = some x) :
    Yields o undefinedShift e e' run x :=
  ⟨[], [], tested, serviced, fun o' signals retells _ _ => ran o' signals retells⟩

theorem Yields.then {run : Host JitLive → Option X} {next : Host JitLive → Option Y}
    {Z : Type} {whole : Host JitLive → Option Z} {z : Z}
    (first : Yields o undefinedShift e e' run x) (second : Yields o undefinedShift e' e'' next y)
    (both : ∀ o' signals, Retells o o' → run (liveHost o' signals undefinedShift) = some x →
      next (liveHost o' signals undefinedShift) = some y →
        whole (liveHost o' signals undefinedShift) = some z) :
    Yields o undefinedShift e e'' whole z := by
  obtain ⟨looks, services, tested, serviced, ran⟩ := first
  obtain ⟨looks', services', tested', serviced', ran'⟩ := second
  refine ⟨looks ++ looks', services ++ services', ?_, ?_, ?_⟩
  · rw [tested', tested, List.length_append, Nat.add_assoc]
  · rw [serviced', serviced, List.length_append, Nat.add_assoc]
  · intro o' signals retells looked told
    obtain ⟨looked, looked'⟩ := supplies_append looked
    obtain ⟨told, told'⟩ := supplies_append told
    rw [← tested] at looked'
    rw [← serviced] at told'
    exact both o' signals retells (ran o' signals retells looked told)
      (ran' o' signals retells looked' told')

theorem Yields.map {run : Host JitLive → Option X} {whole : Host JitLive → Option Y}
    (yields : Yields o undefinedShift e e' run x)
    (ran : ∀ o' signals, Retells o o' → run (liveHost o' signals undefinedShift) = some x →
      whole (liveHost o' signals undefinedShift) = some y) :
    Yields o undefinedShift e e' whole y := by
  obtain ⟨looks, services, tested, serviced, runs⟩ := yields
  exact ⟨looks, services, tested, serviced, fun o' signals retells looked told =>
    ran o' signals retells (runs o' signals retells looked told)⟩

/-- What was asked counts, and not what has become of the host otherwise. -/
theorem Yields.quiet {run : Host JitLive → Option X} (yields : Yields o undefinedShift e e' run x)
    (tested : e''.tested = e'.tested) (serviced : e''.live.serviced = e'.live.serviced) :
    Yields o undefinedShift e e'' run x := by
  obtain ⟨looks, services, tested', serviced', runs⟩ := yields
  exact ⟨looks, services, tested.trans tested', serviced.trans serviced', runs⟩

/-- There is a host with the answers. -/
theorem Yields.exists {run : Host JitLive → Option X} (yields : Yields o undefinedShift e e' run x)
    (tested : e.tested = 0) (serviced : e.live.serviced = 0) :
    ∃ o' signals, Retells o o' ∧ run (liveHost o' signals undefinedShift) = some x := by
  obtain ⟨looks, services, -, -, ran⟩ := yields
  rw [tested, serviced] at ran
  let told (k : Nat) : Int × BitVec 32 := services.getD k (0, 0#32)
  exact ⟨{ o with ticks := fun k => (told k).1, keys := fun k => (told k).2 },
    ⟨fun i => looks.getD i false, 0⟩, ⟨rfl, rfl, rfl⟩,
    ran _ _ ⟨rfl, rfl, rfl⟩ (supplies_getD looks false) (supplies_getD services (0, 0#32))⟩

end

end

end Jit

/-! ## Other key masks -/

/-- The mask with the quit key pressed or not. -/
def pressing (quit : Bool) (keys : BitVec 32) : BitVec 32 :=
  if quit then keys ||| quitBit else keys &&& ~~~quitBit

theorem pressing_masked (quit : Bool) (keys : BitVec 32) :
    pressing quit keys &&& ~~~quitBit = keys &&& ~~~quitBit := by
  apply BitVec.eq_of_getLsbD_eq
  intro i small
  cases quit with
  | true =>
    simp only [pressing, if_true, BitVec.getLsbD_and, BitVec.getLsbD_or, BitVec.getLsbD_not, small,
      decide_true, Bool.true_and]
    cases keys.getLsbD i <;> cases quitBit.getLsbD i <;> rfl
  | false =>
    simp only [pressing, Bool.false_eq_true, if_false, BitVec.getLsbD_and, BitVec.getLsbD_not,
      small, decide_true, Bool.true_and]
    cases keys.getLsbD i <;> cases quitBit.getLsbD i <;> rfl

theorem pressing_quit (quit : Bool) (keys : BitVec 32) :
    (pressing quit keys).getLsbD 31 = quit := by
  have high : quitBit.getLsbD 31 = true := by decide
  cases quit with
  | true => simp only [pressing, if_true, BitVec.getLsbD_or, high, Bool.or_true]
  | false =>
    simp only [pressing, Bool.false_eq_true, if_false, BitVec.getLsbD_and, BitVec.getLsbD_not, high,
      Bool.not_true, Bool.and_false]

theorem and_eq_of_masked {a b bit : BitVec 32} (masked : a &&& ~~~quitBit = b &&& ~~~quitBit)
    (same : bit.getLsbD 31 = true → a.getLsbD 31 = b.getLsbD 31) : a &&& bit = b &&& bit := by
  apply BitVec.eq_of_getLsbD_eq
  intro i small
  have bits := congrArg (fun v => v.getLsbD i) masked
  simp only [BitVec.getLsbD_and, BitVec.getLsbD_not, small, decide_true, Bool.true_and] at bits ⊢
  -- Bit 31 is the quit key's, and the others are those of the masks.
  by_cases high : i = 31
  · subst high
    cases on : bit.getLsbD 31 with
    | false => rw [Bool.and_false, Bool.and_false]
    | true => rw [same on]
  · have low : quitBit.getLsbD i = false := by
      have bits : ∀ i < 32, i ≠ 31 → quitBit.getLsbD i = false := by decide
      exact bits i small high
    rw [low, Bool.not_false, Bool.and_true, Bool.and_true] at bits
    rw [bits]

namespace JitLive

/-- The host with other key masks, having been asked another number of times. -/
def retold (masks : Nat → BitVec 32) (served looked : Nat) (e : JitLive) : JitLive :=
  { e with live := { e.live with keysDown := masks, serviced := served }, tested := looked }

/-- `check_interrupt` with an answer. -/
def hear (pending : Bool) (tick : Int) (keys : BitVec 32) (e : JitLive) : JitLive :=
  let looked := { e with tested := e.tested + 1 }
  if pending then
    let live := (e.live.countTimers tick).recordKeys keys
    { looked with live := live, programOver := e.programOver || live.quitting }
  else looked

theorem checkInterrupt_hear (o : Outside) (signals : Signals) (e : JitLive) :
    e.checkInterrupt o signals =
      e.hear (signals.pending e.tested) (o.ticks e.live.serviced) (o.keys e.live.serviced) := rfl

/-- A service in a wait, which does not look for the quit key. -/
def serve (tick : Int) (keys : BitVec 32) : JitLive → JitLive :=
  mapLive fun live => (live.countTimers tick).recordKeys keys

end JitLive

/-- The quit key is among some masks. -/
def quits (masks : Nat → BitVec 32) : Prop := ∃ i < inputTicks, (masks i).getLsbD 31 = true

/-- `e'` is the host `e`, retold: but for the quit key it holds the same masks, and the quit key is
only among its masks where the program is over. -/
structure Retold (e e' : JitLive) : Prop where
  same : ∃ masks served looked, e' = e.retold masks served looked
  masks : ∀ i, e'.live.keysDown i &&& ~~~quitBit = e.live.keysDown i &&& ~~~quitBit
  calm : e.programOver = false → ¬ quits e'.live.keysDown
  ring : e.live.interruptCount < inputTicks

theorem quitting_iff_quits (e : Live) : e.quitting = true ↔ quits e.keysDown := quitting_iff e

theorem retold_self {e : JitLive} (calm : ¬ quits e.live.keysDown)
    (ring : e.live.interruptCount < inputTicks) : Retold e e :=
  ⟨⟨e.live.keysDown, e.live.serviced, e.tested, rfl⟩, fun _ => rfl, fun _ => calm, ring⟩

section
variable {e e' : JitLive}

theorem Retold.programOver (retold : Retold e e') : e'.programOver = e.programOver := by
  obtain ⟨masks, served, looked, rfl⟩ := retold.same
  rfl

theorem Retold.delayTimer (retold : Retold e e') : e'.live.delayTimer = e.live.delayTimer := by
  obtain ⟨masks, served, looked, rfl⟩ := retold.same
  rfl

/-- What does not concern the masks is done to both. -/
theorem Retold.changes (retold : Retold e e') (f : Live → Live)
    (apart : ∀ l masks served, f { l with keysDown := masks, serviced := served } =
      { f l with keysDown := masks, serviced := served })
    (keeps : ∀ l, (f l).keysDown = l.keysDown ∧ (f l).interruptCount = l.interruptCount) :
    Retold (e.mapLive f) (e'.mapLive f) := by
  obtain ⟨⟨masks, served, looked, rfl⟩, same, calm, ring⟩ := retold
  have kept : ((e.retold masks served looked).mapLive f).live.keysDown = masks := (keeps _).1
  refine ⟨⟨masks, served, looked, ?_⟩, ?_, ?_, ?_⟩
  · unfold JitLive.retold JitLive.mapLive
    rw [apart]
  · intro i
    rw [kept]
    show _ = (f e.live).keysDown i &&& _
    rw [(keeps e.live).1]
    exact same i
  · intro goesOn
    rw [kept]
    exact calm goesOn
  · show (f e.live).interruptCount < _
    rw [(keeps e.live).2]
    exact ring

/-- A look that finds no signal. -/
theorem Retold.looks (retold : Retold e e') (tick : Int) (keys : BitVec 32) :
    Retold e (e'.hear false tick keys) := by
  obtain ⟨⟨masks, served, looked, rfl⟩, same, calm, ring⟩ := retold
  exact ⟨⟨masks, served, looked + 1, rfl⟩, same, calm, ring⟩

theorem quits_update {masks : Nat → BitVec 32} (calm : ¬ quits masks) {c : Nat}
    (small : c < inputTicks) (quit : Bool) (keys : BitVec 32) :
    quits (Function.update masks c (pressing quit keys)) ↔ quit = true := by
  constructor
  · rintro ⟨i, inside, pressed⟩
    by_cases here : i = c
    · rwa [here, Function.update_self, pressing_quit] at pressed
    · rw [Function.update_of_ne here] at pressed
      exact absurd ⟨i, inside, pressed⟩ calm
  · intro pressed
    refine ⟨c, small, ?_⟩
    rw [Function.update_self, pressing_quit]
    exact pressed

theorem countTimers_retold (l : Live) (tick : Int) (masks : Nat → BitVec 32) (served : Nat) :
    { l with keysDown := masks, serviced := served }.countTimers tick =
      { l.countTimers tick with keysDown := masks, serviced := served } := by
  unfold Live.countTimers
  dsimp only
  split <;> rfl

theorem countTimers_keys (l : Live) (tick : Int) :
    (l.countTimers tick).keysDown = l.keysDown ∧
      (l.countTimers tick).interruptCount = l.interruptCount ∧
      (l.countTimers tick).serviced = l.serviced := by
  unfold Live.countTimers
  split <;> exact ⟨rfl, rfl, rfl⟩

theorem heard_keys (e : JitLive) (tick : Int) (masks : Nat → BitVec 32) (served : Nat)
    (keys : BitVec 32) :
    (({ e.live with keysDown := masks, serviced := served }.countTimers tick).recordKeys
      keys).keysDown = Function.update masks e.live.interruptCount keys := by
  rw [countTimers_retold]
  exact congrArg (fun c => Function.update masks c keys) (countTimers_keys e.live tick).2.1

/-- Both are serviced, and read masks that differ in the quit key at most. -/
theorem Retold.services (retold : Retold e e') (tick : Int) (keys : BitVec 32) {quit isOver : Bool}
    (overs : isOver = (e'.hear true tick (pressing quit keys)).programOver)
    (calm : isOver = false →
      ¬ quits (Function.update e'.live.keysDown e.live.interruptCount (pressing quit keys))) :
    Retold { e.serve tick keys with programOver := isOver }
      (e'.hear true tick (pressing quit keys)) := by
  obtain ⟨⟨masks, served, looked, rfl⟩, same, -, ring⟩ := retold
  obtain ⟨down, count, -⟩ := countTimers_keys e.live tick
  have heard : ((e.retold masks served looked).hear true tick (pressing quit keys)).live.keysDown =
      Function.update masks e.live.interruptCount (pressing quit keys) :=
    heard_keys e tick masks served (pressing quit keys)
  refine ⟨⟨Function.update masks e.live.interruptCount (pressing quit keys), served + 1, looked + 1,
    ?_⟩, ?_, ?_, ?_⟩
  · rw [overs]
    unfold JitLive.hear JitLive.retold JitLive.serve JitLive.mapLive Live.recordKeys
    simp only [if_true, countTimers_retold, count]
  · intro i
    rw [heard]
    show _ = Function.update (e.live.countTimers tick).keysDown
      (e.live.countTimers tick).interruptCount keys i &&& _
    rw [down, count, Function.update_apply, Function.update_apply]
    split
    · exact pressing_masked quit keys
    · exact same i
  · rw [heard]
    exact calm
  · exact Nat.mod_lt _ (by decide)

/-- A pass of a wait, retold without the quit key. -/
theorem Retold.waits (retold : Retold e e') (goesOn : e.programOver = false) (tick : Int)
    (keys : BitVec 32) : Retold (e.serve tick keys) (e'.hear true tick (pressing false keys)) := by
  -- The quit key is left out of what is retold, so the ring stays calm.
  have calm := fun pressed => Bool.false_ne_true
    ((quits_update (retold.calm goesOn) retold.ring false keys).mp pressed)
  refine retold.services tick keys ?_ fun _ => calm
  obtain ⟨masks, served, looked, rfl⟩ := retold.same
  show e.programOver = (e.programOver || _)
  rw [goesOn, Bool.false_or, eq_comm, Bool.eq_false_iff, ne_eq, quitting_iff_quits, heard_keys]
  exact calm

/-- A signal is retold with the quit key exactly if the program hears it. -/
theorem Retold.hears (retold : Retold e e') (tick : Int) (keys : BitVec 32) :
    ∃ keys', Retold (e.hear true tick keys) (e'.hear true tick keys') := by
  -- The quit key may be in the ring since a wait, and not in this mask.
  obtain ⟨quit, heard⟩ : ∃ quit, ((e.live.countTimers tick).recordKeys keys).quitting = quit :=
    ⟨_, rfl⟩
  refine ⟨pressing quit keys, ?_⟩
  have shape : e.hear true tick keys =
      { e.serve tick keys with
        tested := e.tested + 1
        programOver := e.programOver || quit } := by
    rw [← heard]
    rfl
  have services := @Retold.services e e' retold tick keys quit (e.programOver || quit) ?_ ?_
  · rw [shape]
    obtain ⟨masks, served, looked, same⟩ := services.same
    exact ⟨⟨masks, served, looked, same⟩, services.masks, services.calm, services.ring⟩
  · obtain ⟨masks, served, looked, rfl⟩ := retold.same
    show _ = (e.programOver || _)
    cases goesOn : e.programOver with
    | true => rfl
    | false =>
      rw [Bool.false_or, Bool.false_or, Bool.eq_iff_iff, quitting_iff_quits, heard_keys]
      exact (quits_update (retold.calm goesOn) retold.ring quit keys).symm
  · intro calm
    obtain ⟨goesOn, rfl⟩ := Bool.or_eq_false_iff.mp calm
    exact fun pressed => Bool.false_ne_true
      ((quits_update (retold.calm goesOn) retold.ring _ keys).mp pressed)

/-- A key is cleared in both. -/
theorem Retold.clears (retold : Retold e e') (undefinedShift : Byte → BitVec 32) (key : Byte) :
    Retold (e.mapLive (.clearKey undefinedShift key))
      (e'.mapLive (.clearKey undefinedShift key)) := by
  obtain ⟨⟨masks, served, looked, rfl⟩, same, calm, ring⟩ := retold
  refine ⟨⟨_, served, looked, rfl⟩, ?_, ?_, ring⟩
  · intro i
    have here : masks i &&& ~~~quitBit = e.live.keysDown i &&& ~~~quitBit := same i
    show (if i < inputTicks then masks i &&& _ else masks i) &&& _ =
      (if i < inputTicks then e.live.keysDown i &&& _ else e.live.keysDown i) &&& _
    split
    · rw [BitVec.and_assoc, BitVec.and_comm (~~~_), ← BitVec.and_assoc, here, BitVec.and_assoc,
        BitVec.and_comm (~~~quitBit), ← BitVec.and_assoc]
    · exact here
  · rintro goesOn ⟨i, small, pressed⟩
    refine calm goesOn ⟨i, small, ?_⟩
    have pressed : (if i < inputTicks then masks i &&& _ else masks i).getLsbD 31 = true := pressed
    rw [if_pos small, BitVec.getLsbD_and] at pressed
    exact (Bool.and_eq_true_iff.mp pressed).1

theorem allKeysDown_masked {l l' : Live}
    (same : ∀ i, l'.keysDown i &&& ~~~quitBit = l.keysDown i &&& ~~~quitBit) :
    l'.allKeysDown &&& ~~~quitBit = l.allKeysDown &&& ~~~quitBit := by
  unfold Live.allKeysDown
  generalize List.range inputTicks = is
  have folded (all all' : BitVec 32) (masked : all' &&& ~~~quitBit = all &&& ~~~quitBit) :
      is.foldl (fun all i => all ||| l'.keysDown i) all' &&& ~~~quitBit =
        is.foldl (fun all i => all ||| l.keysDown i) all &&& ~~~quitBit := by
    induction is generalizing all all' with
    | nil => exact masked
    | cons i is ih =>
      refine ih _ _ ?_
      rw [BitVec.and_comm, BitVec.and_or_distrib_left, BitVec.and_comm _ all',
        BitVec.and_comm _ (l'.keysDown i), masked, same i, BitVec.and_comm all,
        BitVec.and_comm (l.keysDown i), ← BitVec.and_or_distrib_left, BitVec.and_comm]
  exact folded _ _ rfl

/-- The test of a key is the same, if it does not come to see the quit key. -/
theorem Retold.tests (retold : Retold e e') {bit : BitVec 32}
    (unseen : bit.getLsbD 31 = true → e.live.quitting = false ∧ e.programOver = false) :
    e'.live.allKeysDown &&& bit = e.live.allKeysDown &&& bit := by
  refine and_eq_of_masked (allKeysDown_masked retold.masks) fun on => ?_
  obtain ⟨calm, goesOn⟩ := unseen on
  have high (l : Live) (calm : l.quitting = false) : l.allKeysDown.getLsbD 31 = false := by
    unfold Live.quitting at calm
    exact (and_quitBit _).mp (by simpa using calm)
  rw [high _ calm, high]
  exact Bool.eq_false_iff.mpr fun quitting =>
    retold.calm goesOn ((quitting_iff_quits _).mp quitting)

end

/-! ## Operations -/

namespace Jit

/-- The test of a key skip does not come to see the quit key. -/
def Helper.Unseen (undefinedShift : Byte → BitVec 32) (h : Helper) (m : Machine JitLive) : Prop :=
  h = .skipKeyXDown ∨ h = .skipKeyXUp →
    (shiftKey undefinedShift (m.vm.regs (opX m.opcode))).getLsbD 31 = true →
      m.env.live.quitting = false ∧ m.env.programOver = false

def Machine.withEnv (e : JitLive) (m : Machine JitLive) : Machine JitLive := { m with env := e }

def Frame.withEnv (e : JitLive) (f : Frame JitLive) : Frame JitLive :=
  { f with machine := f.machine.withEnv e }

section
variable {o : Outside} {signals : Signals} {undefinedShift : Byte → BitVec 32} {e e' : JitLive}

/-! ### Helpers -/

theorem hear_yields (e : JitLive) (pending : Bool) (tick : Int) (keys : BitVec 32) :
    Yields o undefinedShift e (e.hear pending tick keys) (fun P => some (P.checkInterrupt e))
      (e.hear pending tick keys) := by
  cases pending with
  | false =>
    refine ⟨[false], [], rfl, rfl, fun o' signals _ looked _ => ?_⟩
    have first := looked 0 false rfl
    show some (e.checkInterrupt o' signals) = _
    rw [JitLive.checkInterrupt_hear, show signals.pending e.tested = false from first]
    rfl
  | true =>
    refine ⟨[true], [(tick, keys)], rfl, ?_, fun o' signals _ looked told => ?_⟩
    · exact congrArg (· + 1) (countTimers_keys e.live tick).2.2
    · have first := looked 0 true rfl
      have answers := told 0 (tick, keys) rfl
      show some (e.checkInterrupt o' signals) = _
      rw [JitLive.checkInterrupt_hear, show signals.pending e.tested = true from first,
        show o'.ticks e.live.serviced = tick from congrArg Prod.fst answers,
        show o'.keys e.live.serviced = keys from congrArg Prod.snd answers]

theorem check_retold (retold : Retold e e') :
    ∃ e'', Retold (e.checkInterrupt o signals) e'' ∧
      Yields o undefinedShift e' e'' (fun P => some (P.checkInterrupt e')) e'' := by
  rw [JitLive.checkInterrupt_hear]
  cases signals.pending e.tested with
  | false =>
    have looks := retold.looks 0 0#32
    exact ⟨_, ⟨looks.same, looks.masks, looks.calm, looks.ring⟩, hear_yields e' false 0 0#32⟩
  | true =>
    obtain ⟨keys', hears⟩ := retold.hears (o.ticks e.live.serviced) (o.keys e.live.serviced)
    exact ⟨_, hears, hear_yields e' true _ keys'⟩

theorem scan_retold (retold : Retold e e') (keys : List Nat) :
    Retold (keys.foldl (fun e i => e.mapLive (.clearKey undefinedShift (BitVec.ofNat 8 i))) e)
        (keys.foldl (fun e i => e.mapLive (.clearKey undefinedShift (BitVec.ofNat 8 i))) e') ∧
      (keys.foldl (fun e i => e.mapLive (.clearKey undefinedShift (BitVec.ofNat 8 i))) e').tested =
        e'.tested ∧
      (keys.foldl (fun e i => e.mapLive (.clearKey undefinedShift (BitVec.ofNat 8 i)))
        e').live.serviced = e'.live.serviced := by
  induction keys generalizing e e' with
  | nil => exact ⟨retold, rfl, rfl⟩
  | cons key keys ih => exact ih (retold.clears undefinedShift (BitVec.ofNat 8 key))

theorem noteStore_withEnv (m : Machine JitLive) (e : JitLive) (a : Word) (n : Nat) :
    (m.withEnv e).noteStore a n = (m.noteStore a n).withEnv e := by
  unfold Machine.noteStore Machine.withEnv
  dsimp only
  split <;> rfl

theorem loadOnKey_live (o : Outside) (signals : Signals) (m : Machine JitLive) :
    m.loadOnKey (liveHost o signals undefinedShift) =
      if o.awaited m.env.live.awaits &&& quitBit != 0#32 then none
      else some { m with
        vm := (pressed (o.awaited m.env.live.awaits)).foldl
          (fun vm i => vm.setReg (opX m.opcode) (BitVec.ofNat 8 i)) m.vm
        env := (List.range 16).foldl
          (fun (e : JitLive) i => e.mapLive (.clearKey undefinedShift (BitVec.ofNat 8 i)))
          (m.env.mapLive fun l => { l with awaits := l.awaits + 1 }) }.advance := by
  unfold Machine.loadOnKey
  dsimp only
  rw [scanKeys_eq]
  rfl

/-- Every helper but the wait does the same on a host that is retold. -/
theorem helper_retold {h : Helper} (other : h ≠ .idleWait) {m m' : Machine JitLive}
    (ran : h.run (liveHost o signals undefinedShift) m = some m') (retold : Retold m.env e')
    (unseen : h.Unseen undefinedShift m) :
    ∃ e'', Retold m'.env e'' ∧
      Yields o undefinedShift e' e'' (fun P => h.run P (m.withEnv e')) (m'.withEnv e'') := by
  -- Most helpers leave the host alone.
  have quiet {f : Machine JitLive → Machine JitLive} (kept : (f m).env = m.env)
      (same : f (m.withEnv e') = (f m).withEnv e') (ran : some (f m) = some m') :
      ∃ e'', Retold m'.env e'' ∧
        Yields o undefinedShift e' e'' (fun _ => some (f (m.withEnv e'))) (m'.withEnv e'') := by
    cases ran
    exact ⟨e', kept ▸ retold, .unasked rfl rfl fun _ _ _ => congrArg some same⟩
  -- A key skip sees the masks without the quit key only.
  have key (up : Bool) (unseen : (shiftKey undefinedShift (m.vm.regs (opX m.opcode))).getLsbD 31 =
        true → m.env.live.quitting = false ∧ m.env.programOver = false)
      (ran : some (m.skipKeyX (liveHost o signals undefinedShift) up) = some m') :
      ∃ e'', Retold m'.env e'' ∧
        Yields o undefinedShift e' e'' (fun P => some ((m.withEnv e').skipKeyX P up))
          (m'.withEnv e'') := by
    cases ran
    have tests := retold.tests unseen
    have same (o' : Outside) (signals' : Signals) :
        (m.withEnv e').skipKeyX (liveHost o' signals' undefinedShift) up =
          if (m.env.live.allKeysDown &&& shiftKey undefinedShift (m.vm.regs (opX m.opcode)) !=
              0#32) ^^ up then
            (m.withEnv (e'.mapLive (.clearKey undefinedShift
              (m.vm.regs (opX m.opcode))))).advance.advance
          else (m.withEnv e').advance := by
      rw [← tests]
      rfl
    unfold Machine.skipKeyX
    dsimp only
    split
    · rename_i taken
      refine ⟨_, retold.clears undefinedShift _, .unasked rfl rfl fun o' signals' _ => ?_⟩
      exact congrArg some ((same o' signals').trans (if_pos taken))
    · rename_i fallen
      refine ⟨_, retold, .unasked rfl rfl fun o' signals' _ => ?_⟩
      exact congrArg some ((same o' signals').trans (if_neg fallen))
  cases h with
  | idleWait => exact absurd rfl other
  | clearscreenIo => exact quiet rfl rfl ran
  | syncTimers => exact @quiet (Machine.mapEnv id) rfl rfl ran
  | restoreRegisters => exact quiet rfl rfl ran
  | storeBcd =>
    refine quiet (noteStore_env _ _ m) ?_ ran
    unfold Machine.storeBcd
    rw [noteStore_withEnv]
    rfl
  | saveRegisters =>
    refine quiet (noteStore_env _ _ m) ?_ ran
    unfold Machine.saveRegisters
    dsimp only
    rw [noteStore_withEnv]
    rfl
  | skipKeyXDown => exact key false (unseen (.inl rfl)) ran
  | skipKeyXUp => exact key true (unseen (.inr rfl)) ran
  | retern =>
    obtain ⟨e'', checked, yields⟩ := @check_retold o signals undefinedShift _ _ retold
    have ran : Machine.retern (liveHost o signals undefinedShift) m = some m' := ran
    unfold Machine.retern at ran
    dsimp only [Machine.mapEnv] at ran
    split at ran
    · rename_i pending
      cases ran
      refine ⟨e'', checked, yields.map fun o' signals' _ found => ?_⟩
      show Machine.retern _ _ = _
      unfold Machine.retern
      dsimp only [Machine.mapEnv, Machine.withEnv]
      rw [Option.some.inj found]
      exact if_pos pending
    · cases ran
  | call =>
    obtain ⟨e'', checked, yields⟩ := @check_retold o signals undefinedShift _ _ retold
    have ran : Machine.call (liveHost o signals undefinedShift) m = some m' := ran
    unfold Machine.call at ran
    dsimp only [Machine.mapEnv] at ran
    split at ran
    · rename_i room
      cases ran
      refine ⟨e'', checked, yields.map fun o' signals' _ found => ?_⟩
      show Machine.call _ _ = _
      unfold Machine.call
      dsimp only [Machine.mapEnv, Machine.withEnv]
      rw [Option.some.inj found]
      exact if_pos room
    · cases ran
  | draw =>
    cases ran
    obtain ⟨e₁, checked, yields⟩ := @check_retold o signals undefinedShift _ _ retold
    have synced := checked.changes
      (fun l => { l with lastTick := o.frames l.frames, frames := l.frames + 1 })
      (fun _ _ _ => rfl) fun _ => ⟨rfl, rfl⟩
    refine ⟨_, synced, .quiet (yields.map fun o' signals' retells found => ?_) rfl rfl⟩
    show some (Machine.draw _ _) = _
    unfold Machine.draw
    dsimp only [Machine.withEnv]
    rw [Option.some.inj found]
    show some { m with vm := _, env := e₁.mapLive (Platform.frameSync _) } = _
    unfold livePlatform
    dsimp only
    rw [retells.frames]
    rfl
  | randomByte =>
    cases ran
    have drawn := retold.changes (fun l => { l with rands := l.rands + 1 }) (fun _ _ _ => rfl)
      fun _ => ⟨rfl, rfl⟩
    obtain ⟨masks, served, looked, rfl⟩ := retold.same
    refine ⟨_, drawn, .unasked rfl rfl fun o' signals' retells => ?_⟩
    show some (Machine.randomByte _ _) = _
    unfold Machine.randomByte liveHost livePlatform
    dsimp only [Machine.withEnv]
    rw [retells.rand]
    rfl
  | loadOnKey =>
    have ran : Machine.loadOnKey (liveHost o signals undefinedShift) m = some m' := ran
    rw [loadOnKey_live] at ran
    split at ran
    · cases ran
    · rename_i kept
      cases ran
      have waited := retold.changes (fun l => { l with awaits := l.awaits + 1 }) (fun _ _ _ => rfl)
        fun _ => ⟨rfl, rfl⟩
      obtain ⟨scanned, tested, serviced⟩ := @scan_retold undefinedShift _ _ waited (List.range 16)
      obtain ⟨masks, served, looked, rfl⟩ := retold.same
      refine ⟨_, scanned, .unasked tested serviced fun o' signals' retells => ?_⟩
      show Machine.loadOnKey _ _ = _
      rw [loadOnKey_live, retells.awaited]
      exact if_neg kept

end

end Jit

end ChipEight
