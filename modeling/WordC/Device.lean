import WordC.Word

/-!
# Devices

The pins, the serial line and the timer that a program can reach through built-in functions. Each
function has a name of its own and takes integers as they are, without reducing them to words; what
it answers is a word. A call that fails leaves the devices as they were.
-/

namespace WordC

structure Pin where
  direction : Int
  mode : Int
  value : Int := 0
  deriving DecidableEq, Repr

structure Uart where
  baudRate : Int := 115200
  txReady : Int := 1
  rxReady : Int := 0
  data : Int := 0
  deriving DecidableEq, Repr

structure Timer where
  mode : Int := 0
  period : Int := 0
  value : Int := 0
  running : Int := 0
  expired : Int := 0
  deriving DecidableEq, Repr

structure Devices where
  pins : List (Int × Pin) := []
  uart : Uart := {}
  timer : Timer := {}
  /-- The bytes sent over the serial line, the last one first. -/
  sent : List Nat := []
  deriving DecidableEq, Repr

inductive DeviceError where
  | arity (name : String) (needed got : Nat)
  | noPin (pin : Int)
  | notReady
  | unknown (name : String)
  deriving DecidableEq, Repr

def DeviceError.message : DeviceError → String
  | arity name needed got =>
    name ++ " expects " ++ toString needed ++ (if needed = 1 then " argument" else " arguments") ++
      ", got " ++ toString got
  | noPin pin => "GPIO pin " ++ toString pin ++ " not configured"
  | notReady => "UART TX not ready"
  | unknown name => "Unknown hardware function: " ++ name

/-- The built-in functions. -/
inductive DeviceFunction where
  | gpioSet | gpioRead | gpioWrite | uartSetBaud | uartGetStatus | uartRead | uartWrite
  | timerSetMode
  | timerSetPeriod | timerStart | timerStop | timerReset | timerGetValue | timerExpired | delayMs
  | delayUs
  | delayCycles | enableInterrupts | disableInterrupts | setBit | clearBit | toggleBit | getBit
  deriving DecidableEq, Repr

namespace DeviceFunction

def name : DeviceFunction → String
  | gpioSet => "gpio_set"
  | gpioRead => "gpio_read"
  | gpioWrite => "gpio_write"
  | uartSetBaud => "uart_set_baud"
  | uartGetStatus => "uart_get_status"
  | uartRead => "uart_read"
  | uartWrite => "uart_write"
  | timerSetMode => "timer_set_mode"
  | timerSetPeriod => "timer_set_period"
  | timerStart => "timer_start"
  | timerStop => "timer_stop"
  | timerReset => "timer_reset"
  | timerGetValue => "timer_get_value"
  | timerExpired => "timer_expired"
  | delayMs => "delay_ms"
  | delayUs => "delay_us"
  | delayCycles => "delay_cycles"
  | enableInterrupts => "enable_interrupts"
  | disableInterrupts => "disable_interrupts"
  | setBit => "set_bit"
  | clearBit => "clear_bit"
  | toggleBit => "toggle_bit"
  | getBit => "get_bit"

def all : List DeviceFunction :=
  [gpioSet, gpioRead, gpioWrite, uartSetBaud, uartGetStatus, uartRead, uartWrite, timerSetMode,
   timerSetPeriod, timerStart, timerStop, timerReset, timerGetValue, timerExpired, delayMs, delayUs,
   delayCycles, enableInterrupts, disableInterrupts, setBit, clearBit, toggleBit, getBit]

theorem mem_all (f : DeviceFunction) : f ∈ all := by cases f <;> decide

def ofName? (name : String) : Option DeviceFunction := all.find? fun f => f.name == name

end DeviceFunction

namespace Devices

def pin? (d : Devices) (p : Int) : Option Pin := d.pins.lookup p

def setPin (d : Devices) (p : Int) (pin : Pin) : Devices :=
  { d with pins := (p, pin) :: d.pins.filter fun e => e.1 != p }

/-- The text sent over the serial line, a character for each byte. -/
def sentText (d : Devices) : String := String.ofList (d.sent.reverse.map Char.ofNat)

/-! ### The functions -/

def gpioRead (d : Devices) (p : Int) : Except DeviceError (Int × Devices) :=
  match d.pin? p with
  | some pin => .ok (pin.value, d)
  | none => .error (.noPin p)

def gpioWrite (d : Devices) (p v : Int) : Except DeviceError (Int × Devices) :=
  match d.pin? p with
  | some pin => .ok (0, d.setPin p { pin with value := v % 2 })
  | none => .error (.noPin p)

def uartStatus (d : Devices) : Int := Word.bitOr d.uart.txReady (d.uart.rxReady * 2)

def uartRead (d : Devices) : Int × Devices :=
  if d.uart.rxReady = 0 then (0, d)
  else (d.uart.data % 256, { d with uart := { d.uart with rxReady := 0 } })

def uartWrite (d : Devices) (v : Int) : Except DeviceError (Int × Devices) :=
  if d.uart.txReady = 0 then .error .notReady
  else
    let byte := v % 256
    .ok (0, { d with
      uart := { d.uart with data := byte, txReady := 1 }, sent := byte.toNat :: d.sent })

def setTimer (d : Devices) (f : Timer → Timer) : Except DeviceError (Int × Devices) :=
  .ok (0, { d with timer := f d.timer })

/-- A running timer with a positive period expires once. -/
def timerExpired (d : Devices) : Int × Devices :=
  if d.timer.running ≠ 0 ∧ 0 < d.timer.period ∧ d.timer.expired = 0 then
    (1, { d with timer := { d.timer with expired := 1 } })
  else (0, d)

/-- Calls a built-in function. The functions without parameters take any arguments. -/
def call (d : Devices) (f : DeviceFunction) (args : List Int) :
    Except DeviceError (Int × Devices) :=
  let wrong (needed : Nat) : Except DeviceError (Int × Devices) :=
    .error (.arity f.name needed args.length)
  match f with
  | .gpioSet =>
    match args with
    | [p, direction, mode] => .ok (0, d.setPin p { direction, mode })
    | _ => wrong 3
  | .gpioRead =>
    match args with
    | [p] => d.gpioRead p
    | _ => wrong 1
  | .gpioWrite =>
    match args with
    | [p, v] => d.gpioWrite p v
    | _ => wrong 2
  | .uartSetBaud =>
    match args with
    | [rate] => .ok (0, { d with uart := { d.uart with baudRate := rate } })
    | _ => wrong 1
  | .uartGetStatus => .ok (d.uartStatus, d)
  | .uartRead => .ok d.uartRead
  | .uartWrite =>
    match args with
    | [v] => d.uartWrite v
    | _ => wrong 1
  | .timerSetMode =>
    match args with
    | [mode] => d.setTimer fun t => { t with mode }
    | _ => wrong 1
  | .timerSetPeriod =>
    match args with
    | [period] => d.setTimer fun t => { t with period }
    | _ => wrong 1
  | .timerStart => d.setTimer fun t => { t with running := 1, value := 0, expired := 0 }
  | .timerStop => d.setTimer fun t => { t with running := 0 }
  | .timerReset => d.setTimer fun t => { t with value := 0, expired := 0 }
  | .timerGetValue => .ok (Word.wrap d.timer.value, d)
  | .timerExpired => .ok d.timerExpired
  | .delayMs | .delayUs | .delayCycles | .enableInterrupts | .disableInterrupts => .ok (0, d)
  | .setBit =>
    match args with
    | [v, b] => .ok (Word.setBit v b, d)
    | _ => wrong 2
  | .clearBit =>
    match args with
    | [v, b] => .ok (Word.clearBit v b, d)
    | _ => wrong 2
  | .toggleBit =>
    match args with
    | [v, b] => .ok (Word.toggleBit v b, d)
    | _ => wrong 2
  | .getBit =>
    match args with
    | [v, b] => .ok (Word.getBit v b, d)
    | _ => wrong 2

def callNamed (d : Devices) (name : String) (args : List Int) :
    Except DeviceError (Int × Devices) :=
  match DeviceFunction.ofName? name with
  | some f => d.call f args
  | none => .error (.unknown name)

end Devices

end WordC
