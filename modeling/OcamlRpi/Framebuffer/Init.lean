import OcamlRpi.Framebuffer.Mailbox

namespace OcamlRpi.Framebuffer

/-- `enum Error` of the C side. -/
inductive Error where
  | SUCCESS
  | FAIL_GET_RESOLUTION
  | FAIL_GOT_INVALID_RESOLUTION
  | FAIL_SETUP_FRAMEBUFFER
  | FAIL_INVALID_TAGS
  | FAIL_INVALID_TAG_RESPONSE
  | FAIL_INVALID_TAG_DATA
  | FAIL_INVALID_PITCH_RESPONSE
  | FAIL_INVALID_PITCH_DATA
deriving DecidableEq

def Error.code : Error → ℤ
  | SUCCESS => 0
  | FAIL_GET_RESOLUTION => 1
  | FAIL_GOT_INVALID_RESOLUTION => 2
  | FAIL_SETUP_FRAMEBUFFER => 3
  | FAIL_INVALID_TAGS => 4
  | FAIL_INVALID_TAG_RESPONSE => 5
  | FAIL_INVALID_TAG_DATA => 6
  | FAIL_INVALID_PITCH_RESPONSE => 7
  | FAIL_INVALID_PITCH_DATA => 8

/-- `type result` of the OCaml side. -/
inductive Result where
  | SUCCESS
  | FAIL_GET_RESOLUTION
  | FAIL_GOT_INVALID_RESOLUTION
  | FAIL_SETUP_FRAMEBUFFER
  | FAIL_INVALID_TAGS
  | FAIL_INVALID_TAG_RESPONSE
  | FAIL_INVALID_TAG_DATA
  | FAIL_INVALID_PITCH_RESPONSE
  | FAIL_INVALID_PITCH_DATA
deriving DecidableEq

def valInt (k : ℤ) : ℤ := 2 * k + 1

def intVal (v : ℤ) : ℤ := v >>> (1 : ℕ)

/-- The value of a constant constructor, by its place in the declaration. -/
def Result.value : Result → ℤ
  | SUCCESS => valInt 0
  | FAIL_GET_RESOLUTION => valInt 1
  | FAIL_GOT_INVALID_RESOLUTION => valInt 2
  | FAIL_SETUP_FRAMEBUFFER => valInt 3
  | FAIL_INVALID_TAGS => valInt 4
  | FAIL_INVALID_TAG_RESPONSE => valInt 5
  | FAIL_INVALID_TAG_DATA => valInt 6
  | FAIL_INVALID_PITCH_RESPONSE => valInt 7
  | FAIL_INVALID_PITCH_DATA => valInt 8

def Error.result : Error → Result
  | SUCCESS => .SUCCESS
  | FAIL_GET_RESOLUTION => .FAIL_GET_RESOLUTION
  | FAIL_GOT_INVALID_RESOLUTION => .FAIL_GOT_INVALID_RESOLUTION
  | FAIL_SETUP_FRAMEBUFFER => .FAIL_SETUP_FRAMEBUFFER
  | FAIL_INVALID_TAGS => .FAIL_INVALID_TAGS
  | FAIL_INVALID_TAG_RESPONSE => .FAIL_INVALID_TAG_RESPONSE
  | FAIL_INVALID_TAG_DATA => .FAIL_INVALID_TAG_DATA
  | FAIL_INVALID_PITCH_RESPONSE => .FAIL_INVALID_PITCH_RESPONSE
  | FAIL_INVALID_PITCH_DATA => .FAIL_INVALID_PITCH_DATA

structure FB where
  base : UInt32
  size : UInt32
  pitch : UInt32
  width : UInt32
  height : UInt32
deriving DecidableEq

def resolutionRequest : List UInt32 := [8 * 4, 0, 0x40003, 8, 0, 0, 0, 0]

/-- The words that are stored through `mailbuffer[c++]`, from `c = 1` on. -/
def setupWords (width height : UInt32) : List UInt32 :=
  [0,
    0x00048003, 8, 8, width, height,
    0x00048004, 8, 8, width, height,
    0x00048005, 4, 4, 32,
    0x00040001, 8, 4, 16, 0,
    0]

/-- The value that `c` comes to. -/
def setupLength : ℕ := 22

def setupRequest (width height : UInt32) : List UInt32 :=
  UInt32.ofNat (setupLength * 4) :: setupWords width height

example (width height : UInt32) : (setupRequest width height).length = setupLength := rfl

def pitchRequest : List UInt32 := [7 * 4, 0, 0x40008, 4, 0, 0, 0]

/-- The scan for the allocate response, from the tag at `i` on: the `i` of the
`break` or of the end of the loop, or none for `FAIL_INVALID_TAGS`. As long as
`i` is at most `c`, the next one is less than `2 ^ 32`. -/
def scan (buf : Buffer) (c i : ℕ) : Option ℕ :=
  if buf i = 0 ∨ buf i = 0x40001 then some i
  else
    let next := i + (3 + (buf (i + 1) >>> 2).toNat)
    if c < next then none else scan buf c next
termination_by c + 1 - i

/-- `CAMLreturn(Int_val(e))`, with the framebuffer as it is then. -/
def ret (e : Error) (fb : FB) : Option (ℤ × FB) := some (intVal e.code, fb)

/-- `ocaml_rpi__fb_init` without the drawing after the last check. -/
def fbInit (fw : Firmware) (buf : Buffer) (fb : FB) : Option (ℤ × FB) := do
  let e := envelope FBCHAN BUFFER_ADDRESS
  let buf ← exchange fw 0 e (request resolutionRequest buf)
  if buf 1 ≠ 0x80000000 then ret .FAIL_GET_RESOLUTION fb
  else
    let fb := { fb with width := buf 5, height := buf 6 }
    if fb.width = 0 ∨ fb.height = 0 then ret .FAIL_GOT_INVALID_RESOLUTION fb
    else
      let buf ← exchange fw 1 e (request (setupRequest fb.width fb.height) buf)
      if buf 1 ≠ 0x80000000 then ret .FAIL_SETUP_FRAMEBUFFER fb
      else
        match scan buf setupLength 2 with
        | none => ret .FAIL_INVALID_TAGS fb
        | some i =>
          if buf (i + 2) ≠ 0x80000008 then ret .FAIL_INVALID_TAG_RESPONSE fb
          else
            let fb := { fb with base := buf (i + 3), size := buf (i + 4) }
            if fb.base = 0 ∨ fb.size = 0 then ret .FAIL_INVALID_TAG_DATA fb
            else
              -- physical to virtual
              let fb := { fb with base := fb.base + 0xC0000000 }
              let buf ← exchange fw 2 e (request pitchRequest buf)
              if buf 4 ≠ 0x80000004 then ret .FAIL_INVALID_PITCH_RESPONSE fb
              else
                let fb := { fb with pitch := buf 5 }
                if fb.pitch = 0 then ret .FAIL_INVALID_PITCH_DATA fb
                else ret .SUCCESS fb

variable (fw : Firmware) (buf : Buffer) (fb : FB)

def resolutionReply : Buffer :=
  (fw 0 (envelope FBCHAN BUFFER_ADDRESS) (request resolutionRequest buf)).buffer

def setupReply : Buffer :=
  let reply := resolutionReply fw buf
  (fw 1 (envelope FBCHAN BUFFER_ADDRESS) (request (setupRequest (reply 5) (reply 6)) reply)).buffer

def pitchReply : Buffer :=
  (fw 2 (envelope FBCHAN BUFFER_ADDRESS) (request pitchRequest (setupReply fw buf))).buffer

/-- What is checked, in this order, and the error for it. -/
def checks : List (Bool × Error) :=
  let size := resolutionReply fw buf
  let setup := setupReply fw buf
  let pitch := pitchReply fw buf
  let tag := scan setup setupLength 2
  let i := tag.getD 0
  [(size 1 = 0x80000000, .FAIL_GET_RESOLUTION),
    (size 5 ≠ 0 ∧ size 6 ≠ 0, .FAIL_GOT_INVALID_RESOLUTION),
    (setup 1 = 0x80000000, .FAIL_SETUP_FRAMEBUFFER),
    (tag.isSome, .FAIL_INVALID_TAGS),
    (setup (i + 2) = 0x80000008, .FAIL_INVALID_TAG_RESPONSE),
    (setup (i + 3) ≠ 0 ∧ setup (i + 4) ≠ 0, .FAIL_INVALID_TAG_DATA),
    (pitch 4 = 0x80000004, .FAIL_INVALID_PITCH_RESPONSE),
    (pitch 5 ≠ 0, .FAIL_INVALID_PITCH_DATA)]

/-- The error of the first check that failed. -/
def firstError : List (Bool × Error) → Error
  | [] => .SUCCESS
  | c :: cs => if c.1 then firstError cs else c.2

def firstFailed : Error := firstError (checks fw buf)

/-- The OCaml side gets the constructor for the first check that failed, and
`SUCCESS` exactly if all of them passed. -/
def HandsBackResult (v : ℤ) : Prop :=
  v = (firstFailed fw buf).result.value ∧
    (v = Result.SUCCESS.value ↔ ∀ c ∈ checks fw buf, c.1)

variable {fw buf fb}

theorem ret_fst (e : Error) : (ret e fb).map Prod.fst = some (intVal e.code) := rfl

theorem check_fst {q : Prop} [Decidable q] {ok : Bool} {e : Error} {cs : List (Bool × Error)}
    {rest : Option (ℤ × FB)} (hq : q ↔ ok = false)
    (h : ok = true → rest.map Prod.fst = some (intVal (firstError cs).code)) :
    (if q then ret e fb else rest).map Prod.fst = some (intVal (firstError ((ok, e) :: cs)).code) := by
  cases ok with
  | false =>
    rw [if_pos (hq.mpr rfl)]
    exact ret_fst e
  | true =>
    rw [if_neg fun h' ↦ Bool.noConfusion (hq.mp h')]
    exact h rfl

variable (fw buf fb)

theorem exchange_resolution : exchange fw 0 (envelope FBCHAN BUFFER_ADDRESS) (request resolutionRequest buf) =
    some (resolutionReply fw buf) :=
  exchange_eq _ _ _ _

theorem exchange_setup : exchange fw 1 (envelope FBCHAN BUFFER_ADDRESS)
    (request (setupRequest (resolutionReply fw buf 5) (resolutionReply fw buf 6)) (resolutionReply fw buf)) =
    some (setupReply fw buf) :=
  exchange_eq _ _ _ _

theorem exchange_pitch : exchange fw 2 (envelope FBCHAN BUFFER_ADDRESS)
    (request pitchRequest (setupReply fw buf)) = some (pitchReply fw buf) :=
  exchange_eq _ _ _ _

theorem fbInit_fst : (fbInit fw buf fb).map Prod.fst = some (intVal (firstFailed fw buf).code) := by
  simp only [fbInit, exchange_resolution, exchange_setup, exchange_pitch, Option.bind_eq_bind,
    Option.bind_some, firstFailed, checks]
  apply check_fst (by simp)
  intro _
  apply check_fst (by simp [or_iff_not_imp_left])
  intro _
  apply check_fst (by simp)
  intro _
  cases hs : scan (setupReply fw buf) setupLength 2 with
  | none => exact ret_fst .FAIL_INVALID_TAGS
  | some i =>
    apply check_fst (by simp)
    intro _
    apply check_fst (by simp [or_iff_not_imp_left])
    intro _
    apply check_fst (by simp)
    intro _
    apply check_fst (by simp)
    intro _
    exact ret_fst .SUCCESS

theorem code_ne_value (e : Error) : intVal e.code ≠ e.result.value := by
  cases e <;> decide

/-- Whatever the firmware answers, the OCaml side gets `Int_val` of the error
code, which is not the value of the constructor. -/
theorem fbInit_result : ∃ v fb', fbInit fw buf fb = some (v, fb') ∧ v = intVal (firstFailed fw buf).code ∧
    ¬HandsBackResult fw buf v := by
  obtain ⟨r, hr, hv⟩ := Option.map_eq_some_iff.mp (fbInit_fst fw buf fb)
  refine ⟨r.1, r.2, hr, hv, ?_⟩
  intro h
  exact code_ne_value _ (hv.symm.trans h.1)

/-- A firmware that takes the first request, and knows of no display. -/
def Firmware.blind : Firmware := fun _ _ buf ↦
  ⟨[envelope FBCHAN BUFFER_ADDRESS], fun i ↦ if i = 1 then 0x80000000 else buf i,
    _, List.mem_singleton.mpr rfl, by decide⟩

/-- A display of no size is reported as `SUCCESS`. -/
theorem fbInit_blind :
    firstFailed .blind (fun _ ↦ 0) = .FAIL_GOT_INVALID_RESOLUTION ∧
      fbInit .blind (fun _ ↦ 0) ⟨0, 0, 0, 0, 0⟩ = some (Result.SUCCESS.value, ⟨0, 0, 0, 0, 0⟩) ∧
      ¬∀ fw buf fb, ∃ v fb', fbInit fw buf fb = some (v, fb') ∧ HandsBackResult fw buf v := by
  have hf : firstFailed .blind (fun _ ↦ 0) = .FAIL_GOT_INVALID_RESOLUTION := by decide +kernel
  have hi : fbInit .blind (fun _ ↦ 0) ⟨0, 0, 0, 0, 0⟩ =
      some (Result.SUCCESS.value, ⟨0, 0, 0, 0, 0⟩) := by
    decide +kernel
  refine ⟨hf, hi, ?_⟩
  intro h
  obtain ⟨v, fb', hv, hr, -⟩ := h .blind (fun _ ↦ 0) ⟨0, 0, 0, 0, 0⟩
  rw [hi] at hv
  obtain ⟨rfl, -⟩ := Prod.mk.inj (Option.some.inj hv)
  rw [hf] at hr
  exact absurd hr (by decide)

end OcamlRpi.Framebuffer
