import Mathlib.Algebra.Ring.Nat
import Mathlib.Data.UInt

namespace OcamlRpi.Framebuffer

/-- The words of memory from `BUFFER_ADDRESS` on. -/
abbrev Buffer := ℕ → UInt32

structure Envelope where
  raw : UInt32
deriving DecidableEq

def ENVELOPE_SHIFT_CHANNEL : UInt32 := 0

def ENVELOPE_MASK_CHANNEL : UInt32 := 0xF

def ENVELOPE_MASK_ADDR : UInt32 := 0xFFFFFFF0

def envelope (chan address : UInt32) : Envelope := ⟨address ||| chan⟩

def envelopeChannel (e : Envelope) : UInt32 :=
  (e.raw &&& ENVELOPE_MASK_CHANNEL) >>> ENVELOPE_SHIFT_CHANNEL

def envelopeAddr (e : Envelope) : UInt32 := e.raw &&& ENVELOPE_MASK_ADDR

/-- `mail_read`, given the envelopes that come into the mailbox. If none of them
is for `chan`, it waits for ever. -/
def mailRead (chan : UInt32) : List Envelope → Option UInt32
  | [] => none
  | e :: es => if envelopeChannel e = chan then some (envelopeAddr e) else mailRead chan es

def FBCHAN : UInt32 := 8

def BUFFER_ADDRESS : UInt32 := 0x1000

/-- What the firmware makes of a request: the envelopes that it sends, and the
buffer that is read after it. It does answer on the channel of the request. -/
structure Reply where
  envelopes : List Envelope
  buffer : Buffer
  answers : ∃ e ∈ envelopes, envelopeChannel e = FBCHAN

/-- The reply to each request, which is told by its number, its envelope and
what the buffer holds. -/
abbrev Firmware := ℕ → Envelope → Buffer → Reply

/-- The message `ws` in the buffer. -/
def request (ws : List UInt32) (buf : Buffer) : Buffer := fun i ↦ ws.getD i (buf i)

theorem answers_singleton : ∃ e ∈ [envelope FBCHAN BUFFER_ADDRESS], envelopeChannel e = FBCHAN :=
  ⟨_, List.mem_singleton.mpr rfl, by decide⟩

/-- A firmware that answers the requests with the words `wss` in turn. -/
def Firmware.replies (wss : List (List UInt32)) : Firmware := fun n _ buf ↦
  ⟨[envelope FBCHAN BUFFER_ADDRESS], request (wss.getD n []) buf, answers_singleton⟩

/-- `mail_write(e)` and `mail_read(FBCHAN)`, whose result is not used. -/
def exchange (fw : Firmware) (n : ℕ) (e : Envelope) (buf : Buffer) : Option Buffer :=
  (mailRead FBCHAN (fw n e buf).envelopes).map fun _ ↦ (fw n e buf).buffer

variable {chan : UInt32} {es : List Envelope}

theorem mailRead_isSome (h : ∃ e ∈ es, envelopeChannel e = chan) : (mailRead chan es).isSome := by
  induction es with
  | nil =>
    obtain ⟨e, he, -⟩ := h
    cases he
  | cons e es ih =>
    unfold mailRead
    split_ifs with hc
    · rfl
    · obtain ⟨e', he, hc'⟩ := h
      rcases List.mem_cons.mp he with rfl | he
      · exact absurd hc' hc
      · exact ih ⟨e', he, hc'⟩

theorem exchange_eq (fw : Firmware) (n : ℕ) (e : Envelope) (buf : Buffer) :
    exchange fw n e buf = some (fw n e buf).buffer := by
  obtain ⟨a, ha⟩ := Option.isSome_iff_exists.mp (mailRead_isSome (fw n e buf).answers)
  rw [exchange, ha, Option.map_some]

end OcamlRpi.Framebuffer
