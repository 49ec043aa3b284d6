import WordC.Proofs.Running

/-!
# Devices answer from the history of calls

The pins, the serial line and the timer keep a state of their own. This file gives their answers a
second meaning that knows no such state: it looks through the calls that were answered so far. What
a call does to the state and what it adds to the history match, whatever other calls come between,
so after any sequence of calls the two give the same answers.
-/

namespace WordC

open Run Step

/-! ### Histories -/

/-- A call that was answered. -/
structure Answered where
  function : DeviceFunction
  args : List Int
  answer : Int

namespace Answered

/-- Whether a call configures a pin. -/
def sets (e : Answered) (p : Int) : Bool := e.function = .gpioSet ∧ e.args.head? = some p

/-- What a call writes to a pin. -/
def written? (e : Answered) (p : Int) : Option Int :=
  if e.function = .gpioWrite ∧ e.args.head? = some p then e.args[1]? else none

/-- The low byte that a call sends. -/
def byte? (e : Answered) : Option Nat :=
  if e.function = .uartWrite then e.args.head?.map fun v => (v % 256).toNat else none

def period? (e : Answered) : Option Int :=
  if e.function = .timerSetPeriod then e.args.head? else none

/-- Whether a call tells that the timer has expired. -/
def expires (e : Answered) : Bool := e.function = .timerExpired ∧ e.answer = 1

end Answered

/-- The answered calls, the last one first. -/
abbrev History := List Answered

namespace History

def configured (h : History) (p : Int) : Bool := h.any fun e => e.sets p

/-- The low bit that was last written to a pin since it was last configured. -/
def level (h : History) (p : Int) : Int :=
  ((h.takeWhile fun e => !e.sets p).findSome? fun e => e.written? p).getD 0 % 2

/-- The bytes sent so far, in the order of the calls. -/
def bytes (h : History) : List Nat := (h.filterMap fun e => e.byte?).reverse

/-- Whether the timer was last started rather than stopped. -/
def running (h : History) : Bool :=
  (h.find? fun e => e.function = .timerStart ∨ e.function = .timerStop).any fun e =>
    e.function = .timerStart

def period (h : History) : Int := (h.findSome? fun e => e.period?).getD 0

/-- Whether the timer was seen to expire since it was last started or reset. -/
def expired (h : History) : Bool :=
  (h.takeWhile fun e => !(e.function = .timerStart ∨ e.function = .timerReset)).any
    fun e => e.expires

end History

/-- Makes one more call. A call that fails leaves no trace in the history. -/
def Machine.callNext (s : Machine × History) (c : String × List Int) : Machine × History :=
  match DeviceFunction.ofName? c.1, deviceCall c.1 c.2 s.1 with
  | some f, (.ok v, m) => (m, ⟨f, c.2, v⟩ :: s.2)
  | _, (_, m) => (m, s.2)

/-- A fresh machine after a sequence of calls, with the history of those that were answered. -/
def Machine.called (calls : List (String × List Int)) : Machine × History :=
  calls.foldl Machine.callNext ({}, [])

/-! ### The state reflects the history -/

/-- The state of the devices is what the history makes of it. -/
structure Devices.Reflects (d : Devices) (h : History) : Prop where
  pin : ∀ p, (d.pin? p).map (·.value) = if h.configured p then some (h.level p) else none
  txReady : d.uart.txReady = 1
  rxReady : d.uart.rxReady = 0
  sent : d.sent = h.filterMap fun e => e.byte?
  value : d.timer.value = 0
  running : d.timer.running = if h.running then 1 else 0
  period : d.timer.period = h.period
  expired : d.timer.expired = if h.expired then 1 else 0

namespace History

variable {e : Answered} {h : History} {p : Int}

theorem configured_cons (e : Answered) (h : History) (p : Int) :
    configured (e :: h) p = (e.sets p || h.configured p) :=
  List.any_cons

theorem level_cons_sets (he : e.sets p = true) : level (e :: h) p = 0 := by simp [level, he]

theorem level_cons_written {v : Int} (he : e.sets p = false) (hv : e.written? p = some v) :
    level (e :: h) p = v % 2 := by
  simp [level, he, hv]

theorem level_cons_other (he : e.sets p = false) (hv : e.written? p = none) :
    level (e :: h) p = h.level p := by
  simp [level, he, hv]

theorem running_cons_other (hstart : e.function ≠ .timerStart) (hstop : e.function ≠ .timerStop) :
    running (e :: h) = h.running := by
  simp [running, hstart, hstop]

theorem period_cons_other (he : e.period? = none) : period (e :: h) = h.period := by
  simp [period, he]

theorem expired_cons_other (hstart : e.function ≠ .timerStart) (hreset : e.function ≠ .timerReset) :
    expired (e :: h) = (e.expires || h.expired) := by
  simp [expired, hstart, hreset]

end History

/-- The functions that change nothing that a later answer depends on. -/
def DeviceFunction.isQuiet : DeviceFunction → Bool
  | gpioSet | gpioWrite | uartWrite | timerSetPeriod | timerStart | timerStop | timerReset
  | timerExpired => false
  | _ => true

namespace Devices

open History

variable {d d' : Devices} {h : History} {f : DeviceFunction} {args : List Int} {v : Int}

theorem reflects_fresh : ({} : Devices).Reflects [] where
  pin := fun _ => rfl
  txReady := rfl
  rxReady := rfl
  sent := rfl
  value := rfl
  running := rfl
  period := rfl
  expired := rfl

theorem pin?_setPin (d : Devices) (p q : Int) (pin : Pin) :
    (d.setPin p pin).pin? q = if q = p then some pin else d.pin? q := by
  unfold pin? setPin
  by_cases hq : q = p
  · simp [hq]
  · have hqp : (q == p) = false := beq_eq_false_iff_ne.mpr hq
    have hrest : (d.pins.filter fun e => e.1 != p).lookup q = d.pins.lookup q := by
      induction d.pins with
      | nil => rfl
      | cons e es ih =>
        obtain ⟨k, pin'⟩ := e
        by_cases hk : k = p
        · simp [hk, List.lookup_cons, hqp, ih]
        · simp [hk, List.lookup_cons, ih]
    simp [hq, List.lookup_cons, hqp, hrest]

variable (hd : d.Reflects h)

include hd

theorem Reflects.configured_eq (p : Int) : h.configured p = (d.pin? p).isSome := by
  have hp := congrArg Option.isSome (hd.pin p)
  rw [Option.isSome_map] at hp
  rw [hp]
  cases h.configured p <;> rfl

theorem Reflects.quiet (hf : f.isQuiet = true) : d.Reflects (⟨f, args, v⟩ :: h) := by
  have hne (g : DeviceFunction) (hg : g.isQuiet = false) : f ≠ g := by
    rintro rfl
    exact Bool.false_ne_true (hg.symm.trans hf)
  have hsets (p : Int) : Answered.sets ⟨f, args, v⟩ p = false := by
    simp [Answered.sets, hne .gpioSet rfl]
  have hperiod : Answered.period? ⟨f, args, v⟩ = none := if_neg (hne .timerSetPeriod rfl)
  have hexpires : Answered.expires ⟨f, args, v⟩ = false := by
    simp [Answered.expires, hne .timerExpired rfl]
  refine ⟨fun p => ?_, hd.txReady, hd.rxReady, ?_, hd.value, ?_, ?_, ?_⟩
  · rw [configured_cons, hsets, Bool.false_or,
      level_cons_other (hsets p) (if_neg fun hw => hne .gpioWrite rfl hw.1)]
    exact hd.pin p
  · rw [hd.sent, List.filterMap_cons_none]
    exact if_neg (hne .uartWrite rfl)
  · rw [running_cons_other (hne .timerStart rfl) (hne .timerStop rfl)]
    exact hd.running
  · rw [period_cons_other hperiod]
    exact hd.period
  · rw [expired_cons_other (hne .timerStart rfl) (hne .timerReset rfl), hexpires, Bool.false_or]
    exact hd.expired

theorem Reflects.setPin (p direction mode : Int) :
    (d.setPin p { direction, mode }).Reflects (⟨.gpioSet, [p, direction, mode], v⟩ :: h) := by
  refine ⟨fun q => ?_, hd.txReady, hd.rxReady, hd.sent, hd.value, hd.running, hd.period, hd.expired⟩
  rw [pin?_setPin, configured_cons]
  by_cases hq : q = p
  · have hsets : Answered.sets ⟨.gpioSet, [p, direction, mode], v⟩ q = true := by
      simp [Answered.sets, hq]
    rw [hsets, level_cons_sets hsets, if_pos hq]
    rfl
  · have hsets : Answered.sets ⟨.gpioSet, [p, direction, mode], v⟩ q = false := by
      simp [Answered.sets, Ne.symm hq]
    rw [hsets, level_cons_other hsets rfl, if_neg hq, Bool.false_or]
    exact hd.pin q

theorem Reflects.writePin {p : Int} {pin : Pin} (hpin : d.pin? p = some pin) (w : Int) :
    (d.setPin p { pin with value := w % 2 }).Reflects (⟨.gpioWrite, [p, w], v⟩ :: h) := by
  refine ⟨fun q => ?_, hd.txReady, hd.rxReady, hd.sent, hd.value, hd.running, hd.period, hd.expired⟩
  have hsets : Answered.sets ⟨.gpioWrite, [p, w], v⟩ q = false := rfl
  rw [pin?_setPin, configured_cons, hsets, Bool.false_or]
  by_cases hq : q = p
  · have hconfigured : h.configured q = true := by
      rw [hd.configured_eq, hq, hpin]
      rfl
    have hwritten : Answered.written? ⟨.gpioWrite, [p, w], v⟩ q = some w := by
      simp [Answered.written?, hq]
    rw [hconfigured, level_cons_written hsets hwritten, if_pos hq]
    rfl
  · have hwritten : Answered.written? ⟨.gpioWrite, [p, w], v⟩ q = none := by
      simp [Answered.written?, Ne.symm hq]
    rw [level_cons_other hsets hwritten, if_neg hq]
    exact hd.pin q

theorem Reflects.send (w : Int) : Reflects { d with
      uart := { d.uart with data := w % 256, txReady := 1 }, sent := (w % 256).toNat :: d.sent }
      (⟨.uartWrite, [w], v⟩ :: h) := by
  refine ⟨hd.pin, rfl, hd.rxReady, ?_, hd.value, hd.running, hd.period, hd.expired⟩
  have hbyte : Answered.byte? ⟨.uartWrite, [w], v⟩ = some (w % 256).toNat := rfl
  rw [List.filterMap_cons_some hbyte, ← hd.sent]

theorem Reflects.setPeriod (n : Int) :
    Reflects { d with timer := { d.timer with period := n } } (⟨.timerSetPeriod, [n], v⟩ :: h) :=
  ⟨hd.pin, hd.txReady, hd.rxReady, hd.sent, hd.value, hd.running, rfl, hd.expired⟩

theorem Reflects.start : Reflects { d with timer := { d.timer with
      running := 1, value := 0, expired := 0 } } (⟨.timerStart, args, v⟩ :: h) :=
  ⟨hd.pin, hd.txReady, hd.rxReady, hd.sent, rfl, rfl, hd.period, rfl⟩

theorem Reflects.stop :
    Reflects { d with timer := { d.timer with running := 0 } } (⟨.timerStop, args, v⟩ :: h) :=
  ⟨hd.pin, hd.txReady, hd.rxReady, hd.sent, hd.value, rfl, hd.period, hd.expired⟩

theorem Reflects.reset : Reflects { d with
      timer := { d.timer with value := 0, expired := 0 } } (⟨.timerReset, args, v⟩ :: h) :=
  ⟨hd.pin, hd.txReady, hd.rxReady, hd.sent, rfl, hd.running, hd.period, rfl⟩

theorem Reflects.expire :
    Reflects { d with timer := { d.timer with expired := 1 } } (⟨.timerExpired, args, 1⟩ :: h) :=
  ⟨hd.pin, hd.txReady, hd.rxReady, hd.sent, hd.value, hd.running, hd.period, rfl⟩

/-- Asked when it has not expired, or not again, the timer stays as it is. -/
theorem Reflects.notExpire : d.Reflects (⟨.timerExpired, args, 0⟩ :: h) :=
  ⟨hd.pin, hd.txReady, hd.rxReady, hd.sent, hd.value, hd.running, hd.period, hd.expired⟩

/-! ### Answers -/

theorem Reflects.gpioRead_eq (p : Int) :
    d.gpioRead p = if h.configured p then .ok (h.level p, d) else .error (.noPin p) := by
  have hp := hd.pin p
  unfold gpioRead
  rw [hd.configured_eq] at hp ⊢
  cases hpin : d.pin? p with
  | none => rfl
  | some pin =>
    rw [hpin] at hp
    have hvalue : pin.value = h.level p := Option.some.inj hp
    rw [← hvalue]
    rfl

theorem Reflects.gpioWrite_fst (p w : Int) :
    (d.gpioWrite p w).map (·.1) = if h.configured p then .ok 0 else .error (.noPin p) := by
  unfold gpioWrite
  rw [hd.configured_eq]
  cases d.pin? p with
  | none => rfl
  | some pin => rfl

theorem Reflects.uartStatus_eq : d.uartStatus = 1 := by
  unfold uartStatus
  rw [hd.txReady, hd.rxReady]
  rfl

theorem Reflects.uartRead_eq : d.uartRead = (0, d) := if_pos hd.rxReady

theorem Reflects.uartWrite_fst (w : Int) : (d.uartWrite w).map (·.1) = .ok 0 := by
  unfold uartWrite
  rw [hd.txReady]
  rfl

theorem Reflects.timerExpired_fst :
    d.timerExpired.1 = if h.running = true ∧ 0 < h.period ∧ h.expired = false then 1 else 0 := by
  have hrunning : d.timer.running ≠ 0 ↔ h.running = true := by
    rw [hd.running]
    cases h.running <;> decide
  have hexpired : d.timer.expired = 0 ↔ h.expired = false := by
    rw [hd.expired]
    cases h.expired <;> decide
  unfold timerExpired
  simp only [hrunning, hexpired, hd.period]
  split <;> rfl

/-! ### Calls -/

/-- What a call does to the state and what it adds to the history match. -/
theorem Reflects.call (hcall : d.call f args = .ok (v, d')) : d'.Reflects (⟨f, args, v⟩ :: h) := by
  cases f with
  | gpioSet =>
    dsimp only [Devices.call] at hcall
    split at hcall
    · cases hcall
      exact hd.setPin _ _ _
    · cases hcall
  | gpioWrite =>
    dsimp only [Devices.call] at hcall
    split at hcall
    · unfold gpioWrite at hcall
      split at hcall
      · next hpin =>
        cases hcall
        exact hd.writePin hpin _
      · cases hcall
    · cases hcall
  | uartWrite =>
    dsimp only [Devices.call] at hcall
    split at hcall
    · unfold uartWrite at hcall
      split at hcall
      · cases hcall
      · cases hcall
        exact hd.send _
    · cases hcall
  | timerSetPeriod =>
    dsimp only [Devices.call] at hcall
    split at hcall
    · cases hcall
      exact hd.setPeriod _
    · cases hcall
  | timerStart =>
    cases hcall
    exact hd.start
  | timerStop =>
    cases hcall
    exact hd.stop
  | timerReset =>
    cases hcall
    exact hd.reset
  | timerExpired =>
    dsimp only [Devices.call, timerExpired] at hcall
    split at hcall
    · cases hcall
      exact hd.expire
    · cases hcall
      exact hd.notExpire
  | gpioRead =>
    dsimp only [Devices.call] at hcall
    split at hcall
    · unfold gpioRead at hcall
      split at hcall
      · cases hcall
        exact hd.quiet rfl
      · cases hcall
    · cases hcall
  | uartSetBaud | timerSetMode =>
    dsimp only [Devices.call] at hcall
    split at hcall
    · cases hcall
      exact Reflects.quiet ⟨hd.pin, hd.txReady, hd.rxReady, hd.sent, hd.value, hd.running,
        hd.period, hd.expired⟩ rfl
    · cases hcall
  | uartRead =>
    dsimp only [Devices.call] at hcall
    rw [hd.uartRead_eq] at hcall
    cases hcall
    exact hd.quiet rfl
  | uartGetStatus | timerGetValue | delayMs | delayUs | delayCycles | enableInterrupts
  | disableInterrupts =>
    cases hcall
    exact hd.quiet rfl
  | setBit | clearBit | toggleBit | getBit =>
    dsimp only [Devices.call] at hcall
    split at hcall
    · cases hcall
      exact hd.quiet rfl
    · cases hcall

end Devices

namespace Machine

theorem deviceCall_apply (m : Machine) (name : String) (args : List Int) :
    deviceCall name args m = match m.devices.callNamed name args with
      | .ok (v, devices) => (.ok v, { m with devices })
      | .error e => (.error (.failure (.device e)), m) := by
  unfold deviceCall
  rw [bind_ok (get_apply m)]
  cases m.devices.callNamed name args with
  | ok answer => rfl
  | error e => rfl

/-- A call that fails leaves the machine as it was. -/
theorem deviceCall_ok_or_same (m : Machine) (name : String) (args : List Int) :
    (∃ v, (deviceCall name args m).1 = .ok v) ∨ (deviceCall name args m).2 = m := by
  rw [deviceCall_apply]
  cases m.devices.callNamed name args with
  | ok answer => exact .inl ⟨answer.1, rfl⟩
  | error e => exact .inr rfl

theorem deviceCall_fst {m : Machine} {name : String} {f : DeviceFunction}
    (hname : DeviceFunction.ofName? name = some f) (args : List Int) : (deviceCall name args m).1 =
      ((m.devices.call f args).map (·.1)).mapError fun e => .failure (.device e) := by
  rw [deviceCall_apply, Devices.callNamed, hname]
  dsimp only
  cases m.devices.call f args with
  | ok answer => rfl
  | error e => rfl

theorem callNext_reflects {s : Machine × History} (hs : s.1.devices.Reflects s.2)
    (c : String × List Int) : (callNext s c).1.devices.Reflects (callNext s c).2 := by
  unfold callNext
  rw [deviceCall_apply]
  unfold Devices.callNamed
  cases hf : DeviceFunction.ofName? c.1 with
  | none => exact hs
  | some f =>
    dsimp only
    cases hcall : s.1.devices.call f c.2 with
    | error e => exact hs
    | ok answer => exact hs.call hcall

theorem called_reflects (calls : List (String × List Int)) :
    (called calls).1.devices.Reflects (called calls).2 :=
  List.foldlRecOn (motive := fun s => s.1.devices.Reflects s.2) calls callNext
    Devices.reflects_fresh fun _ hs c _ => callNext_reflects hs c

end Machine

/-- After any sequence of calls on a fresh machine, whatever their names and arguments: a call that
fails changes nothing, the serial line takes every byte and has sent those of the history, a pin
that was never configured can be neither written nor read and any other has the bit of the history,
pins and timer can always be set, the timer stands at zero, and it has expired just now if it was
last started, its last period is positive and it was not seen to expire since its last start or
reset. -/
theorem device_answers_from_history (calls : List (String × List Int)) :
    let m := (Machine.called calls).1
    let h := (Machine.called calls).2
    (∀ name args, (∃ v, (deviceCall name args m).1 = .ok v) ∨ (deviceCall name args m).2 = m) ∧
    (∀ v, (deviceCall "uart_write" [v] m).1 = .ok 0) ∧
    (∀ args, (deviceCall "uart_get_status" args m).1 = .ok 1) ∧
    (∀ args, (deviceCall "uart_read" args m).1 = .ok 0) ∧
    m.devices.sentText = String.ofList (h.bytes.map Char.ofNat) ∧
    (∀ p direction mode, (deviceCall "gpio_set" [p, direction, mode] m).1 = .ok 0) ∧
    (∀ p v, (deviceCall "gpio_write" [p, v] m).1 =
      if h.configured p then .ok 0 else .error (.failure (.device (.noPin p)))) ∧
    (∀ p, (deviceCall "gpio_read" [p] m).1 =
      if h.configured p then .ok (h.level p) else .error (.failure (.device (.noPin p)))) ∧
    (∀ n, (deviceCall "timer_set_period" [n] m).1 = .ok 0) ∧
    (∀ name ∈ ["timer_start", "timer_stop", "timer_reset"], ∀ args,
      (deviceCall name args m).1 = .ok 0) ∧
    (∀ args, (deviceCall "timer_get_value" args m).1 = .ok 0) ∧
    ∀ args, (deviceCall "timer_expired" args m).1 =
      .ok (if h.running = true ∧ 0 < h.period ∧ h.expired = false then 1 else 0) := by
  intro m h
  have hd : m.devices.Reflects h := Machine.called_reflects calls
  refine ⟨Machine.deviceCall_ok_or_same m, ?_, ?_, ?_, ?_, ?_, ?_, ?_, ?_, ?_, ?_, ?_⟩
  · intro v
    have hcall : (m.devices.call .uartWrite [v]).map (·.1) = .ok 0 := hd.uartWrite_fst v
    rw [Machine.deviceCall_fst (f := .uartWrite) (by decide), hcall]
    rfl
  · intro args
    rw [Machine.deviceCall_fst (f := .uartGetStatus) (by decide)]
    exact congrArg Except.ok hd.uartStatus_eq
  · intro args
    rw [Machine.deviceCall_fst (f := .uartRead) (by decide)]
    exact congrArg (fun answer => Except.ok answer.1) hd.uartRead_eq
  · unfold Devices.sentText History.bytes
    rw [hd.sent]
  · intro p direction mode
    rw [Machine.deviceCall_fst (f := .gpioSet) (by decide)]
    rfl
  · intro p v
    have hcall : (m.devices.call .gpioWrite [p, v]).map (·.1) = _ := hd.gpioWrite_fst p v
    rw [Machine.deviceCall_fst (f := .gpioWrite) (by decide), hcall]
    split <;> rfl
  · intro p
    have hcall : m.devices.call .gpioRead [p] = _ := hd.gpioRead_eq p
    rw [Machine.deviceCall_fst (f := .gpioRead) (by decide), hcall]
    split <;> rfl
  · intro n
    rw [Machine.deviceCall_fst (f := .timerSetPeriod) (by decide)]
    rfl
  · simp only [List.forall_mem_cons, List.not_mem_nil, false_implies, implies_true, and_true]
    refine ⟨fun args => ?_, fun args => ?_, fun args => ?_⟩
    · rw [Machine.deviceCall_fst (f := .timerStart) (by decide)]
      rfl
    · rw [Machine.deviceCall_fst (f := .timerStop) (by decide)]
      rfl
    · rw [Machine.deviceCall_fst (f := .timerReset) (by decide)]
      rfl
  · intro args
    rw [Machine.deviceCall_fst (f := .timerGetValue) (by decide)]
    exact congrArg (fun value => Except.ok (Word.wrap value)) hd.value
  · intro args
    rw [Machine.deviceCall_fst (f := .timerExpired) (by decide)]
    exact congrArg Except.ok hd.timerExpired_fst

/-- Calls to all three devices, one of them to a pin that was not configured. -/
def mixedCalls : List (String × List Int) :=
  [("gpio_set", [3, 1, 0]), ("timer_set_period", [10]), ("gpio_write", [3, 5]),
    ("timer_start", []), ("gpio_write", [4, 1]), ("uart_write", [321])]

theorem mixedCalls_answers :
    (deviceCall "gpio_read" [3] (Machine.called mixedCalls).1).1 = .ok 1 ∧
    (deviceCall "gpio_read" [4] (Machine.called mixedCalls).1).1 =
      .error (.failure (.device (.noPin 4))) ∧
    (deviceCall "timer_expired" [] (Machine.called mixedCalls).1).1 = .ok 1 ∧
    (Machine.called mixedCalls).1.devices.sentText = "A" := by
  obtain ⟨-, -, -, -, hsent, -, -, hread, -, -, -, hexpired⟩ :=
    device_answers_from_history mixedCalls
  refine ⟨(hread 3).trans ?_, (hread 4).trans ?_, (hexpired []).trans ?_, hsent.trans ?_⟩
  · rw [if_pos (by decide +kernel)]
    exact congrArg Except.ok (by decide +kernel)
  · rw [if_neg (by decide +kernel)]
  · rw [if_pos (by decide +kernel)]
  · decide +kernel

end WordC
