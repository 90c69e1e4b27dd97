import ChipEight.Machine.Clock

/-! When the benchmark host is serviced makes no difference.

A history is a list of what a program asks of the host, each at a value of
`bench_retired`, with any further calls of `sync_timers` and `bench_keys_now` in
between. The answers are those of the history without the further calls.
-/

set_option autoImplicit false

namespace ChipEight

inductive Request where
  /-- `Fx07`. -/
  | readDelay
  /-- `Fx15`. -/
  | writeDelay (v : Byte)
  /-- `Fx18`. -/
  | writeSound (v : Byte)
  /-- The test of `Ex9E` and `ExA1`. -/
  | testKeys
  /-- What they do with the key tested. -/
  | clearKey (key : Byte)
  /-- A pass of the loop of `Fx0A`. -/
  | poll
  /-- `sync_timers ()` or `interrupt ()` on nobody's behalf. -/
  | sync
  /-- `bench_keys_now ()` on nobody's behalf. -/
  | look
  deriving DecidableEq, Repr

/-- Not asked for by an instruction. -/
def Request.extra : Request → Bool
  | .sync => true
  | .look => true
  | _ => false

inductive Answer where
  | timer (v : Byte)
  | keys (mask : BitVec 32)
  deriving DecidableEq, Repr

/-- A request and the number of instructions retired when it is made. -/
structure Timed where
  retired : Nat
  request : Request
  deriving DecidableEq, Repr

/-- How much the polls of a history charge. -/
def pollCharge : List Timed → Nat
  | [] => 0
  | t :: ts => (if t.request = .poll then Bench.pollCost else 0) + pollCharge ts

namespace Bench

/-- The host when `n` instructions have retired. -/
def atRetired (n : Nat) (b : Bench) : Bench := { b with retired := n }

section
variable (undefinedShift : Byte → BitVec 32)

def perform (b : Bench) : Request → Option Answer × Bench
  | .readDelay => (some (.timer b.syncTimers.delayTimer), b.syncTimers)
  | .writeDelay v => (none, { b.syncTimers with delayTimer := v })
  | .writeSound v => (none, { b.syncTimers with soundTimer := v })
  | .testKeys => (some (.keys b.keysNow.1), b.keysNow.2)
  | .clearKey key => (none, b.clearKey undefinedShift key)
  | .poll => (some (.keys b.pollKeys.1), b.pollKeys.2)
  | .sync => (none, b.syncTimers)
  | .look => (none, b.keysNow.2)

/-- The answers to a history and the host behind it. -/
def serve (b : Bench) : List Timed → List Answer × Bench
  | [] => ([], b)
  | t :: ts =>
    let r := perform undefinedShift (b.atRetired t.retired) t.request
    let rest := serve r.2 ts
    (r.1.toList ++ rest.1, rest.2)

/-! ## One request -/

theorem perform_agree {b b' : Bench} (agree : Agree b b') (range : b.InRange) (q : Request) :
    (perform undefinedShift b q).1 = (perform undefinedShift b' q).1 ∧
      Agree (perform undefinedShift b q).2 (perform undefinedShift b' q).2 := by
  cases q with
  | readDelay => exact ⟨by simp only [perform, (agree.timers range).1], agree.syncBoth range⟩
  | writeDelay v => exact ⟨rfl, agree.setDelay range v⟩
  | writeSound v => exact ⟨rfl, agree.setSound range v⟩
  | testKeys =>
    have looked := agree.keysNow
    refine ⟨by simp only [perform, looked.1], ?_⟩
    exact (looked.2.symm.keysNow.2).symm
  | clearKey key => exact ⟨rfl, agree.clearKey undefinedShift key⟩
  | poll =>
    have polled := agree.pollKeys
    exact ⟨by simp only [perform, polled.1], polled.2⟩
  | sync => exact ⟨rfl, agree.syncBoth range⟩
  | look => exact ⟨rfl, (agree.keysNow.2.symm.keysNow.2).symm⟩

theorem perform_extra {b b' : Bench} (agree : Agree b b') (range : b.InRange) {q : Request}
    (extra : q.extra = true) :
    (perform undefinedShift b q).1 = none ∧ Agree (perform undefinedShift b q).2 b' := by
  cases q with
  | sync => exact ⟨rfl, agree.syncTimers range⟩
  | look => exact ⟨rfl, agree.keysNow.2⟩
  | _ => cases extra

theorem perform_keeps (b : Bench) (q : Request) : Keeps b (perform undefinedShift b q).2 := by
  cases q with
  | readDelay => exact keeps_syncTimers b
  | writeDelay v => exact (keeps_syncTimers b).trans ⟨rfl, rfl, rfl, rfl, Nat.le_refl _⟩
  | writeSound v => exact (keeps_syncTimers b).trans ⟨rfl, rfl, rfl, rfl, Nat.le_refl _⟩
  | testKeys => exact keeps_keysNow b
  | clearKey key => exact keeps_clearKey undefinedShift key b
  | poll => exact keeps_pollKeys b
  | sync => exact keeps_syncTimers b
  | look => exact keeps_keysNow b

theorem perform_pollClock (b : Bench) (q : Request) :
    (perform undefinedShift b q).2.pollClock =
      b.pollClock + if q = .poll then pollCost else 0 := by
  have synced : b.syncTimers.pollClock = b.pollClock := by
    unfold syncTimers
    dsimp only
    split <;> rfl
  have looked (b : Bench) : b.keysNow.2.pollClock = b.pollClock := by
    rw [keysNow_snd, rollTick_eq]
  cases q with
  | readDelay => exact synced
  | writeDelay v => exact synced
  | writeSound v => exact synced
  | testKeys => exact looked b
  | clearKey key =>
    unfold perform clearKey
    rw [rollTick_eq]
    rfl
  | poll => exact looked _
  | sync => exact synced
  | look => exact looked b

/-! ## Histories -/

theorem atRetired_eq {b : Bench} {n : Nat} (later : b.retired ≤ n) :
    b.atRetired n = b.charge (n - b.retired) 0 := by
  unfold atRetired charge
  rw [Nat.add_sub_of_le later]
  rfl

/-- The second host agrees with the first once it is as late. -/
structure Lags (b b' : Bench) : Prop where
  behind : b'.retired ≤ b.retired
  agree : Agree b (b'.atRetired b.retired)

theorem Lags.refl {b : Bench} (serviced : b.Serviced) : Lags b b where
  behind := Nat.le_refl _
  agree := .refl serviced

theorem Lags.at {b b' : Bench} (lags : Lags b b') {n : Nat} (later : b.retired ≤ n) :
    Agree (b.atRetired n) (b'.atRetired n) := by
  have moved := lags.agree.charge (n - b.retired) 0
  have lead : (b'.atRetired b.retired).atRetired n =
      (b'.atRetired b.retired).charge (n - b.retired) 0 := atRetired_eq (by exact later)
  rw [← atRetired_eq later] at moved
  rw [← lead] at moved
  exact moved

/-- A step of the longer history: an extra request leaves the second host behind. -/
theorem Lags.extra {b b' : Bench} (lags : Lags b b') {t : Timed} (later : b.retired ≤ t.retired)
    (range : (b.atRetired t.retired).InRange) (extra : t.request.extra = true) :
    (perform undefinedShift (b.atRetired t.retired) t.request).1 = none ∧
      Lags (perform undefinedShift (b.atRetired t.retired) t.request).2 b' := by
  have moved := perform_extra undefinedShift (lags.at later) range extra
  have retired := (perform_keeps undefinedShift (b.atRetired t.retired) t.request).retired
  refine ⟨moved.1, ?_, ?_⟩
  · rw [retired]
    exact Nat.le_trans lags.behind later
  · rw [retired]
    exact moved.2

theorem Lags.asked {b b' : Bench} (lags : Lags b b') {t : Timed} (later : b.retired ≤ t.retired)
    (range : (b.atRetired t.retired).InRange) :
    (perform undefinedShift (b.atRetired t.retired) t.request).1 =
        (perform undefinedShift (b'.atRetired t.retired) t.request).1 ∧
      Lags (perform undefinedShift (b.atRetired t.retired) t.request).2
        (perform undefinedShift (b'.atRetired t.retired) t.request).2 := by
  have moved := perform_agree undefinedShift (lags.at later) range t.request
  have retired := (perform_keeps undefinedShift (b.atRetired t.retired) t.request).retired
  have retired' := (perform_keeps undefinedShift (b'.atRetired t.retired) t.request).retired
  refine ⟨moved.1, ?_, ?_⟩
  · rw [retired, retired']
    exact Nat.le_refl _
  · have same : (perform undefinedShift (b'.atRetired t.retired) t.request).2.atRetired
        (perform undefinedShift (b.atRetired t.retired) t.request).2.retired =
          (perform undefinedShift (b'.atRetired t.retired) t.request).2 := by
      have both : (b.atRetired t.retired).retired = (b'.atRetired t.retired).retired := rfl
      rw [retired, both, ← retired']
      rfl
    rw [same]
    exact moved.2

/-- A history whose requests come in order, none before `b` and none after `last`. -/
structure InOrder (b : Bench) (last : Nat) (ts : List Timed) : Prop where
  sorted : ts.Pairwise fun t u => t.retired ≤ u.retired
  later : ∀ t ∈ ts, b.retired ≤ t.retired
  within : ∀ t ∈ ts, t.retired ≤ last
  start : b.retired ≤ last

/-- The last tick of a history fits the `int` of `bench_tick`. -/
def FitsInt (b : Bench) (last : Nat) (ts : List Timed) : Prop :=
  (last + b.pollClock + pollCharge ts) / instrPerTick < 2 ^ 31

theorem InOrder.tail {b : Bench} {last : Nat} {t : Timed} {ts : List Timed}
    (order : InOrder b last (t :: ts)) :
    InOrder (perform undefinedShift (b.atRetired t.retired) t.request).2 last ts := by
  have retired := (perform_keeps undefinedShift (b.atRetired t.retired) t.request).retired
  obtain ⟨first, rest⟩ := List.pairwise_cons.mp order.sorted
  constructor
  · exact rest
  · intro u mem
    rw [retired]
    exact first u mem
  · exact fun u mem => order.within u (List.mem_cons_of_mem t mem)
  · rw [retired]
    exact order.within t List.mem_cons_self

theorem FitsInt.here {b : Bench} {last : Nat} {ts : List Timed} (fits : FitsInt b last ts)
    {n : Nat} (within : n ≤ last) : (b.atRetired n).InRange := by
  unfold FitsInt at fits
  refine Nat.lt_of_le_of_lt (Nat.div_le_div_right ?_) fits
  show n + b.pollClock ≤ last + b.pollClock + pollCharge ts
  omega

theorem FitsInt.tail {b : Bench} {last : Nat} {t : Timed} {ts : List Timed}
    (fits : FitsInt b last (t :: ts)) :
    FitsInt (perform undefinedShift (b.atRetired t.retired) t.request).2 last ts := by
  have charged := perform_pollClock undefinedShift (b.atRetired t.retired) t.request
  unfold FitsInt at fits ⊢
  rw [charged]
  unfold pollCharge at fits
  have same : last + ((b.atRetired t.retired).pollClock + if t.request = .poll then pollCost else 0) +
      pollCharge ts =
        last + b.pollClock + ((if t.request = .poll then pollCost else 0) + pollCharge ts) := by
    show last + (b.pollClock + _) + _ = _
    omega
  rw [same]
  exact fits

theorem serve_lags {b b' : Bench} {last : Nat} {ts : List Timed} (lags : Lags b b')
    (order : InOrder b last ts) (fits : FitsInt b last ts) :
    (serve undefinedShift b ts).1 =
        (serve undefinedShift b' (ts.filter fun t => !t.request.extra)).1 ∧
      Lags (serve undefinedShift b ts).2
        (serve undefinedShift b' (ts.filter fun t => !t.request.extra)).2 ∧
      (serve undefinedShift b ts).2.retired ≤ last ∧
      FitsInt (serve undefinedShift b ts).2 last [] := by
  induction ts generalizing b b' with
  | nil => exact ⟨rfl, lags, order.start, fits⟩
  | cons t ts ih =>
    have later := order.later t List.mem_cons_self
    have range := fits.here (order.within t List.mem_cons_self)
    cases extra : t.request.extra with
    | true =>
      obtain ⟨silent, lagsOn⟩ := lags.extra undefinedShift later range extra
      rw [List.filter_cons_of_neg (by simp [extra])]
      simp only [serve, silent]
      exact ih lagsOn (order.tail undefinedShift) (fits.tail undefinedShift)
    | false =>
      obtain ⟨answers, lagsOn⟩ := lags.asked undefinedShift later range
      rw [List.filter_cons_of_pos (by simp [extra])]
      simp only [serve, answers]
      obtain ⟨rest, final⟩ := ih lagsOn (order.tail undefinedShift) (fits.tail undefinedShift)
      exact ⟨by rw [rest], final⟩

theorem initial_serviced (budget clockCap : Int) (keyMode : KeyMode) :
    (initial budget clockCap keyMode).Serviced :=
  ⟨Int.natCast_nonneg _, Int.le_trans (Int.neg_nonpos_of_nonneg (Int.natCast_nonneg 1)) (Int.natCast_nonneg _)⟩

/-- The answers of the host and its timers at the end do not depend on how often it is
serviced in between. -/
theorem servicing_invisible (budget clockCap : Int) (keyMode : KeyMode) (last : Nat)
    (ts : List Timed) (sorted : ts.Pairwise fun t u => t.retired ≤ u.retired)
    (within : ∀ t ∈ ts, t.retired ≤ last)
    (fits : (last + pollCharge ts) / instrPerTick < 2 ^ 31) :
    let served := serve undefinedShift (initial budget clockCap keyMode) ts
    let bare := serve undefinedShift (initial budget clockCap keyMode)
      (ts.filter fun t => !t.request.extra)
    served.1 = bare.1 ∧
      (served.2.atRetired last).syncTimers.delayTimer =
        (bare.2.atRetired last).syncTimers.delayTimer ∧
      (served.2.atRetired last).syncTimers.soundTimer =
        (bare.2.atRetired last).syncTimers.soundTimer := by
  dsimp only
  have order : InOrder (initial budget clockCap keyMode) last ts :=
    ⟨sorted, (fun t _ => Nat.zero_le _), within, Nat.zero_le _⟩
  have fits : FitsInt (initial budget clockCap keyMode) last ts := fits
  obtain ⟨answers, lags, before, fitsOn⟩ := serve_lags undefinedShift
    (Lags.refl (initial_serviced budget clockCap keyMode)) order fits
  exact ⟨answers, (lags.at before).timers (fitsOn.here (Nat.le_refl last))⟩

/-- A timer set in tick 0 and read in tick 2, with and without a service in tick 1. -/
theorem servicing_invisible_oneTick :
    (serve (fun _ => 0#32) (initial 10000 640000 .rotate)
      [⟨1, .writeDelay 5#8⟩, ⟨2500, .sync⟩, ⟨2600, .look⟩, ⟨4000, .readDelay⟩]).1 =
    (serve (fun _ => 0#32) (initial 10000 640000 .rotate)
      [⟨1, .writeDelay 5#8⟩, ⟨4000, .readDelay⟩]).1 :=
  (servicing_invisible (fun _ => 0#32) 10000 640000 .rotate 5000
    [⟨1, .writeDelay 5#8⟩, ⟨2500, .sync⟩, ⟨2600, .look⟩, ⟨4000, .readDelay⟩]
    (by decide) (by decide) (by decide)).1

end

end Bench

end ChipEight
