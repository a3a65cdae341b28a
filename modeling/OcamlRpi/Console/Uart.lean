import Mathlib.Data.Nat.Notation
import Mathlib.Data.UInt

namespace OcamlRpi.Console

open List

def GPIO_BASE : UInt32 := 0xE0200000

def GPPUD : UInt32 := GPIO_BASE + 0x94

def GPPUDCLK0 : UInt32 := GPIO_BASE + 0x98

def UART0_BASE : UInt32 := 0xE0201000

def UART0_DR : UInt32 := UART0_BASE + 0x00

def UART0_FR : UInt32 := UART0_BASE + 0x18

def UART0_IBRD : UInt32 := UART0_BASE + 0x24

def UART0_FBRD : UInt32 := UART0_BASE + 0x28

def UART0_LCRH : UInt32 := UART0_BASE + 0x2C

def UART0_CR : UInt32 := UART0_BASE + 0x30

def UART0_IMSC : UInt32 := UART0_BASE + 0x38

def UART0_ICR : UInt32 := UART0_BASE + 0x44

/-- `1 << n` -/
def bit (n : UInt32) : UInt32 := 1 <<< n

/-- The UART: its control and line control registers, what it still has to send
or to be read, oldest first, and what it has put on the line so far. -/
structure Uart where
  cr : UInt32
  lcrh : UInt32
  tx : List UInt8
  rx : List UInt8
  line : List UInt8
deriving DecidableEq

namespace Uart

variable (u : Uart)

/-- The FIFOs have 16 places if the line control register enables them. -/
def depth : ℕ := if u.lcrh &&& bit 4 = 0 then 1 else 16

def Full : Prop := u.depth ≤ u.tx.length

instance : Decidable u.Full := inferInstanceAs (Decidable (_ ≤ _))

/-- The flags in `UART0_FR` for a full transmit FIFO and an empty receive FIFO. -/
def fr : UInt32 := (if u.Full then bit 5 else 0) ||| (if u.rx = [] then bit 4 else 0)

/-- A character for which there is no room is lost. -/
def send (c : UInt8) : Uart := if u.Full then u else { u with tx := u.tx ++ [c] }

/-- A character comes in on the line. If there is no room for it, it is lost. -/
def receive (c : UInt8) : Uart := if u.depth ≤ u.rx.length then u else { u with rx := u.rx ++ [c] }

/-- The UART and its transmitter are on. -/
def Enabled : Prop := u.cr &&& bit 0 ≠ 0 ∧ u.cr &&& bit 8 ≠ 0

instance : Decidable u.Enabled := inferInstanceAs (Decidable (_ ∧ _))

/-- The oldest character goes out on the line. -/
def transmit : Uart :=
  match u.tx with
  | [] => u
  | c :: cs => if u.Enabled then { u with tx := cs, line := u.line ++ [c] } else u

def mmioWrite (reg data : UInt32) : Uart :=
  if reg = UART0_DR then u.send data.toUInt8
  else if reg = UART0_LCRH then { u with lcrh := data }
  else if reg = UART0_CR then { u with cr := data }
  else u

/-- `mmio_read` of `UART0_FR` or `UART0_DR`. -/
def mmioRead (reg : UInt32) : UInt32 × Uart :=
  if reg = UART0_FR then (u.fr, u)
  else if reg = UART0_DR then ((u.rx.headD 0).toUInt32, { u with rx := u.rx.tail })
  else (0, u)

/-- `uart_init` -/
def init : Uart :=
  [(UART0_CR, 0), (GPPUD, 0), (GPPUDCLK0, bit 14 ||| bit 15), (GPPUDCLK0, 0), (UART0_ICR, 0x7FF),
    (UART0_IBRD, 1), (UART0_FBRD, 40), (UART0_LCRH, bit 4 ||| bit 5 ||| bit 6),
    (UART0_IMSC, bit 1 ||| bit 4 ||| bit 5 ||| bit 6 ||| bit 7 ||| bit 8 ||| bit 9 |||
      bit 10),
    (UART0_CR, bit 0 ||| bit 8 ||| bit 9)].foldl (fun u w ↦ u.mmioWrite w.1 w.2) u

variable {u} {c : UInt8}

theorem depth_pos : 0 < u.depth := by
  rw [depth]
  split_ifs <;> decide

theorem not_full (h : u.tx = []) : ¬u.Full := by
  rw [Full, h]
  exact Nat.not_le.mpr depth_pos

@[simp] theorem mmioRead_fr : u.mmioRead UART0_FR = (u.fr, u) := if_pos rfl

@[simp] theorem mmioWrite_dr : u.mmioWrite UART0_DR c.toUInt32 = u.send c := by
  rw [mmioWrite, if_pos rfl, UInt8.toUInt8_toUInt32]

theorem fr_full : u.fr &&& bit 5 ≠ 0 ↔ u.Full := by
  rw [fr]
  split_ifs <;> simp_all <;> decide

theorem fr_empty : u.fr &&& bit 4 ≠ 0 ↔ u.rx = [] := by
  rw [fr]
  split_ifs <;> simp_all <;> decide

theorem mmioRead_dr (u : Uart) : u.mmioRead UART0_DR = ((u.rx.headD 0).toUInt32, { u with rx := u.rx.tail }) := by
  rw [mmioRead, if_neg (by decide), if_pos rfl]

theorem init_lcrh (u : Uart) : u.init.lcrh = bit 4 ||| bit 5 ||| bit 6 := by
  simp [Uart.init, mmioWrite, UART0_DR, UART0_LCRH, UART0_CR, UART0_BASE, GPPUD, GPPUDCLK0, GPIO_BASE, UART0_ICR,
    UART0_IBRD, UART0_FBRD, UART0_IMSC]

theorem init_depth (u : Uart) : u.init.depth = 16 := by
  rw [depth, init_lcrh]
  decide

theorem init_enabled (u : Uart) : u.init.Enabled := by
  have hcr : u.init.cr = bit 0 ||| bit 8 ||| bit 9 := by
    simp [Uart.init, mmioWrite, UART0_DR, UART0_LCRH, UART0_CR, UART0_BASE, GPPUD, GPPUDCLK0, GPIO_BASE, UART0_ICR,
      UART0_IBRD, UART0_FBRD, UART0_IMSC]
  rw [Enabled, hcr]
  decide

end Uart

end OcamlRpi.Console
