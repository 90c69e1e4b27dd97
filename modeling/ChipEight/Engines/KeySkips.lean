import ChipEight.Aot.Refinement
import ChipEight.Jit.Shutdown
import ChipEight.Library.Guarded
import ChipEight.Machine.Bench
import ChipEight.Machine.Interactive
import ChipEight.Machine.Scan

/-! The shifts of `Ex9E` and `ExA1`.

No engine masks the register: its value is the amount of the shift in the test of the key, and
again in `clear_key` where the skip is taken. `Fx29` masks its register in every engine. The
amounts are listed, and the functions are given once more with a test in front of each shift.
-/

set_option autoImplicit false

namespace ChipEight

/-! ## Shifts -/

/-- `1 << k` is defined and one of the sixteen keys. -/
structure KeyBit (k : Byte) : Prop where
  defined : k < 32#8
  key : ∃ i < 16, 1#32 <<< k.toNat = 1#32 <<< i
  notQuit : 1#32 <<< k.toNat ≠ quitBit

theorem keyBit_iff (k : Byte) : KeyBit k ↔ k < 16#8 := by
  constructor
  · rintro ⟨defined, ⟨i, small, same⟩, -⟩
    have low : k.toNat < 32 := defined
    have bit := congrArg (fun v => v.getLsbD k.toNat) same
    rw [← BitVec.twoPow_eq, ← BitVec.twoPow_eq, BitVec.getLsbD_twoPow, BitVec.getLsbD_twoPow] at bit
    have here : i < 32 ∧ i = k.toNat := by simpa [low] using bit
    rw [here.2] at small
    exact small
  · intro low
    have small : k.toNat < 16 := low
    have bits : ∀ i < 16, 1#32 <<< i ≠ quitBit := by decide
    refine ⟨?_, ⟨k.toNat, small, rfl⟩, bits k.toNat small⟩
    exact Nat.lt_trans small (by decide)

/-- The amounts a key skip shifts by: in its test, and in `clear_key` where it is taken. -/
def skipShifts (keys bit : BitVec 32) (up : Bool) (k : Byte) : List Byte :=
  k :: if (keys &&& bit != 0#32) ^^ up then [k] else []

theorem skipShifts_iff (keys bit : BitVec 32) (up : Bool) (k : Byte) :
    (∀ amount ∈ skipShifts keys bit up k, KeyBit amount) ↔ k < 16#8 := by
  rw [← keyBit_iff]
  constructor
  · exact fun all => all k List.mem_cons_self
  · intro key amount inside
    rcases List.mem_cons.mp inside with rfl | again
    · exact key
    · split at again
      · cases List.mem_singleton.mp again
        exact key
      · exact absurd again List.not_mem_nil

instance (k : Byte) : Decidable (KeyBit k) := decidable_of_iff _ (keyBit_iff k).symm

/-- What is made of `1 << k`, if that is the bit of a key. -/
def shifted {A : Type} (k : Byte) (a : A) : Except Byte A := if KeyBit k then .ok a else .error k

theorem shifted_skip {A : Type} (keys bit : BitVec 32) (up : Bool) (k : Byte) (taken fallen : A) :
    (shifted k bit >>= fun bit =>
      if (keys &&& bit != 0#32) ^^ up then shifted k taken else .ok fallen) =
        .ok (if (keys &&& bit != 0#32) ^^ up then taken else fallen) ↔
      ∀ amount ∈ skipShifts keys bit up k, KeyBit amount := by
  rw [skipShifts_iff, ← keyBit_iff]
  by_cases key : KeyBit k
  · refine iff_of_true ?_ key
    rw [shifted, if_pos key, Guarded.ok_bind, shifted, if_pos key]
    split <;> rfl
  · refine iff_of_false ?_ key
    rw [shifted, if_neg key]
    intro same
    cases same

/-! ## The interpreter -/

section
variable {E : Type} (P : Platform E)

/-- `skip_key_x` with a test in front of both shifts. -/
def Interpreter.checkedSkipKeyX (op : Word) (up : Bool) (s : State E) : Except Byte (Result E) := do
  let key := s.vm.regs (opX op)
  let r := P.allKeysDown s.env
  let bit ← shifted key (P.shiftOne key)
  if (r.1 &&& bit != 0#32) ^^ up then
    shifted key (step (advance { s with env := P.clearKey key r.2 }))
  else .ok (step { s with env := r.2 })

theorem Interpreter.checkedSkipKeyX_iff (op : Word) (up : Bool) (s : State E) :
    checkedSkipKeyX P op up s = .ok (skipKeyX P op up s) ↔
      ∀ amount ∈ skipShifts (P.allKeysDown s.env).1 (P.shiftOne (s.vm.regs (opX op))) up
        (s.vm.regs (opX op)), KeyBit amount :=
  shifted_skip _ _ _ _ _ _

/-- The shifts of `skip_key_x`, if that is what `basic_block` executes. -/
def Interpreter.keyShifts (s : State E) : List Byte :=
  match decode (opcodeAt s.vm.memory s.vm.programCounter) with
  | some (.skipKey x up) =>
    skipShifts (P.allKeysDown s.env).1 (P.shiftOne (s.vm.regs x)) up (s.vm.regs x)
  | _ => []

/-- A key skip names a key. -/
def VM.SkipsKey (vm : VM) : Prop :=
  ∀ x up, decode (opcodeAt vm.memory vm.programCounter) = some (.skipKey x up) → vm.regs x < 16#8

theorem keyShifts_iff (s : State E) :
    (∀ amount ∈ Interpreter.keyShifts P s, KeyBit amount) ↔ s.vm.SkipsKey := by
  unfold Interpreter.keyShifts VM.SkipsKey
  constructor
  · intro defined x up decoded
    rw [decoded] at defined
    exact (skipShifts_iff _ _ _ _).mp defined
  · intro low
    split
    · rename_i x up decoded
      exact (skipShifts_iff _ _ _ _).mpr (low x up decoded)
    · exact fun amount impossible => absurd impossible List.not_mem_nil

end

/-- The state in which `main` of the interactive build calls `basic_block`. -/
def Main.block (elideIdle : Bool) (m : Main) : Option (State Live) :=
  if m.phase = .loop ∧ m.state.env.quitting = false ∧ elided elideIdle m.state = none then
    some m.state
  else none

/-- The state in which `main` of the benchmark build calls it. -/
def benchBlock (s : State Bench) : Option (State Bench) :=
  if s.env.keysNow.1 &&& quitBit != 0#32 then none
  else some { s with env := s.env.keysNow.2.retire 1 }

/-! ## The JITs -/

namespace Jit

section
variable {E : Type} (P : Host E)

/-- Native code comes to a call of a helper. -/
inductive Code.Calls : Code → Frame E → Helper → Machine E → Prop where
  | here {h : Helper} {k : Code} {f : Frame E} : Calls (.op (.call h) k) f h f.machine
  | later {o : Op} {k : Code} {f f' : Frame E} {h : Helper} {m : Machine E}
      (ran : o.run P f = some f') (rest : Calls k f' h m) : Calls (.op o k) f h m
  | taken {c : Comparison} {a b : Value 8} {taken fallen : Code} {f : Frame E} {h : Helper}
      {m : Machine E} (holds : c.eval (f.value a) (f.value b) = true) (rest : Calls taken f h m) :
      Calls (.cond c a b taken fallen) f h m
  | fallen {c : Comparison} {a b : Value 8} {taken fallen : Code} {f : Frame E} {h : Helper}
      {m : Machine E} (fails : c.eval (f.value a) (f.value b) = false)
      (rest : Calls fallen f h m) : Calls (.cond c a b taken fallen) f h m

/-- The block a dispatcher is about to run calls a helper. -/
def Dispatcher.Calls (d : Dispatcher E) (h : Helper) (m : Machine E) : Prop :=
  ∃ t pc code, d.position = .running t pc ∧ t.block pc = some code ∧
    code.Calls P ⟨d.machine, fun _ => 0#8⟩ h m

def Machine.skipShifts (up : Bool) (m : Machine E) : List Byte :=
  let key := m.vm.regs (opX m.opcode)
  ChipEight.skipShifts (P.allKeysDown m.env).1 (P.shiftOne key) up key

/-- `skip_key_x` with a test in front of both shifts. -/
def Machine.checkedSkipKeyX (up : Bool) (m : Machine E) : Except Byte (Machine E) := do
  let key := m.vm.regs (opX m.opcode)
  let r := P.allKeysDown m.env
  let bit ← shifted key (P.shiftOne key)
  if (r.1 &&& bit != 0#32) ^^ up then
    shifted key { m with env := P.clearKey key r.2 }.advance.advance
  else .ok { m with env := r.2 }.advance

theorem Machine.checkedSkipKeyX_iff (up : Bool) (m : Machine E) :
    m.checkedSkipKeyX P up = .ok (m.skipKeyX P up) ↔
      ∀ amount ∈ m.skipShifts P up, KeyBit amount :=
  shifted_skip _ _ _ _ _ _

/-- The shifts of a helper. -/
def Helper.keyShifts (m : Machine E) : Helper → List Byte
  | .skipKeyXDown => m.skipShifts P false
  | .skipKeyXUp => m.skipShifts P true
  | _ => []

/-- A helper that skips by a key is called for one. -/
def Helper.SkipsKey (h : Helper) (m : Machine E) : Prop :=
  h = .skipKeyXDown ∨ h = .skipKeyXUp → m.vm.regs (opX m.opcode) < 16#8

theorem Helper.keyShifts_iff (h : Helper) (m : Machine E) :
    (∀ amount ∈ h.keyShifts P m, KeyBit amount) ↔ h.SkipsKey m := by
  have other (notDown : h ≠ .skipKeyXDown) (notUp : h ≠ .skipKeyXUp) (none : h.keyShifts P m = []) :
      (∀ amount ∈ h.keyShifts P m, KeyBit amount) ↔ h.SkipsKey m := by
    rw [none]
    constructor
    · intro _ skips
      exact absurd skips (not_or.mpr ⟨notDown, notUp⟩)
    · exact fun _ amount impossible => absurd impossible List.not_mem_nil
  cases h with
  | skipKeyXDown =>
    exact (skipShifts_iff _ _ _ _).trans ⟨fun low _ => low, fun low => low (.inl rfl)⟩
  | skipKeyXUp =>
    exact (skipShifts_iff _ _ _ _).trans ⟨fun low _ => low, fun low => low (.inr rfl)⟩
  | _ => exact other Helper.noConfusion Helper.noConfusion rfl

end

end Jit

/-! ## Generated programs -/

namespace Aot

section
variable {E : Type} (H : Host E)

/-- The block control is in comes to a call. -/
def Program.Calls (prog : Program) (c : Config E) (callee : Callee) (m : Machine E) : Prop :=
  ∃ b before behind f, prog.find? (fun b => b.label == c.label) = some b ∧
    b.body = before ++ .call callee :: behind ∧ runBody H before c.frame = some f ∧ f.machine = m

/-- The shifts of a runtime function. -/
def Callee.keyShifts (m : Machine E) : Callee → List Byte
  | .key x up =>
    skipShifts (H.keys (H.pollKeysIfDue m.env)).1 (H.shiftOne (m.vm.regs x)) up (m.vm.regs x)
  | _ => []

/-- `chip8_aot_key` with a test in front of both shifts. -/
def checkedKey (x : Reg) (up : Bool) (m : Machine E) : Except Byte (Machine E) := do
  let key := m.vm.regs x
  let r := H.keys (H.pollKeysIfDue m.env)
  let bit ← shifted key (H.shiftOne key)
  let m : Machine E := { m with env := r.2 }
  if (r.1 &&& bit != 0#32) ^^ up then
    shifted key ({ m with
      vm := m.vm.setPc (m.vm.programCounter + 2)
      env := H.clearKey key m.env }.mapVM fun vm => vm.setPc (vm.programCounter + 2))
  else .ok (m.mapVM fun vm => vm.setPc (vm.programCounter + 2))

theorem checkedKey_iff (x : Reg) (up : Bool) (m : Machine E) :
    checkedKey H x up m = .ok (chip8AotKey H x up m) ↔
      ∀ amount ∈ (Callee.key x up).keyShifts H m, KeyBit amount := by
  unfold chip8AotKey
  dsimp only
  rw [apply_ite fun m : Machine E => m.mapVM fun vm => vm.setPc (vm.programCounter + 2)]
  exact shifted_skip _ _ _ _ _ _

/-- `chip8_aot_key` is called for a key. -/
def Callee.SkipsKey (callee : Callee) (m : Machine E) : Prop :=
  ∀ x up, callee = .key x up → m.vm.regs x < 16#8

theorem Callee.keyShifts_iff (callee : Callee) (m : Machine E) :
    (∀ amount ∈ callee.keyShifts H m, KeyBit amount) ↔ callee.SkipsKey m := by
  cases callee with
  | key x up =>
    refine (skipShifts_iff _ _ _ _).trans ⟨fun low x' up' same => ?_, fun low => low x up rfl⟩
    cases same
    exact low
  | _ =>
    constructor
    · intro _ x up same
      cases same
    · exact fun _ amount impossible => absurd impossible List.not_mem_nil

end

end Aot

/-! ## Runs -/

/-- What holds of every state of a run. -/
def Along {S : Type} (step : S → Option S) (s : S) (p : S → Prop) : Prop :=
  ∀ t, Run.Reaches step s t → p t

theorem Along.congr {S : Type} {step : S → Option S} {s : S} {p q : S → Prop}
    (same : ∀ t, p t ↔ q t) : Along step s p ↔ Along step s q :=
  forall_congr' fun t => imp_congr_right fun _ => same t

/-- In every engine the key skips of a run shift by defined amounts and to the bits of keys if
and only if each of them is executed on a register that names a key. -/
theorem keySkips_defined (rom : List Byte) (undefinedShift : Byte → BitVec 32) :
    (∀ o tick elideIdle,
      Along (liveStep o undefinedShift elideIdle) (Main.boot rom tick) (fun m =>
          ∀ s, m.block elideIdle = some s →
            ∀ amount ∈ Interpreter.keyShifts (livePlatform o undefinedShift) s, KeyBit amount) ↔
        Along (liveStep o undefinedShift elideIdle) (Main.boot rom tick) fun m =>
          ∀ s, m.block elideIdle = some s → s.vm.SkipsKey) ∧
      (∀ rng b,
        Along (benchStep rng undefinedShift) ⟨VM.boot rom, b⟩ (fun t =>
            ∀ s, benchBlock t = some s →
              ∀ amount ∈ Interpreter.keyShifts (benchPlatform rng undefinedShift) s,
                KeyBit amount) ↔
          Along (benchStep rng undefinedShift) ⟨VM.boot rom, b⟩ fun t =>
            ∀ s, benchBlock t = some s → s.vm.SkipsKey) ∧
      (∀ {E : Type} (P : Jit.Host E) build env,
        Along (Jit.Dispatcher.step P build) (Jit.start (VM.boot rom) env) (fun d =>
            ∀ h m, d.Calls P h m → ∀ amount ∈ h.keyShifts P m, KeyBit amount) ↔
          Along (Jit.Dispatcher.step P build) (Jit.start (VM.boot rom) env) fun d =>
            ∀ h m, d.Calls P h m → h.SkipsKey m) ∧
      ∀ {E : Type} (H : Aot.Host E) prog env, Aot.main rom = some prog →
        (Along (prog.step H) (.start (.boot rom env)) (fun c =>
            ∀ callee m, prog.Calls H c callee m →
              ∀ amount ∈ callee.keyShifts H m, KeyBit amount) ↔
          Along (prog.step H) (.start (.boot rom env)) fun c =>
            ∀ callee m, prog.Calls H c callee m → callee.SkipsKey m) := by
  refine ⟨fun o tick elideIdle => ?_, fun rng b => ?_, fun P build env => ?_,
    fun H prog env accepted => ?_⟩
  · exact Along.congr fun m => forall_congr' fun s => imp_congr_right fun _ => keyShifts_iff _ s
  · exact Along.congr fun t => forall_congr' fun s => imp_congr_right fun _ => keyShifts_iff _ s
  · refine Along.congr fun d => forall_congr' fun h => forall_congr' fun m => ?_
    exact imp_congr_right fun _ => h.keyShifts_iff P m
  · refine Along.congr fun c => forall_congr' fun callee => forall_congr' fun m => ?_
    exact imp_congr_right fun _ => callee.keyShifts_iff H m

/-- `LD V0, 0x20` and `SKP V0`: a shift by 32. -/
theorem keySkips_undefined :
    ¬ Along (liveStep quietOutside (fun _ => 0#32) false)
      (Main.boot [0x60#8, 0x20#8, 0xe0#8, 0x9e#8] 0) fun m =>
        ∀ s, m.block false = some s → ∀ amount ∈ Interpreter.keyShifts
          (livePlatform quietOutside fun _ => 0#32) s, KeyBit amount := by
  intro defined
  have shifts := defined _ ⟨1, rfl⟩ _ rfl 0x20#8 (by decide)
  exact absurd ((keyBit_iff _).mp shifts) (by decide)

end ChipEight
