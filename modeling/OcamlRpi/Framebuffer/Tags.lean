import Mathlib.Logic.Relation
import OcamlRpi.Framebuffer.Init

namespace OcamlRpi.Framebuffer

open List Relation

/-- The index of the tag that follows the one at `i`. -/
def nextTag (buf : Buffer) (i : ℕ) : ℕ := i + (3 + (buf (i + 1) >>> 2).toNat)

/-- The scan stops at the tag at `i`. -/
def Stops (buf : Buffer) (i : ℕ) : Prop := buf i = 0 ∨ buf i = 0x40001

instance (buf : Buffer) (i : ℕ) : Decidable (Stops buf i) := inferInstanceAs (Decidable (_ ∨ _))

/-- The indices that the scan reads, from the tag at `i` on. -/
def scanReads (buf : Buffer) (c i : ℕ) : List ℕ :=
  if Stops buf i then [i]
  else if c < nextTag buf i then [i, i + 1]
  else i :: (i + 1) :: scanReads buf c (nextTag buf i)
termination_by c + 1 - i
decreasing_by
  unfold nextTag at *
  omega

/-- The tag from which `fb.base` and `fb.size` are taken. -/
def takenTag (buf : Buffer) (c : ℕ) : Option ℕ := (scan buf c 2).filter fun i ↦ buf (i + 2) = 0x80000008

/-- The indices that are read of the reply to the set-up: by the scan, and for
the response of the tag that it ended at. -/
def replyReads (buf : Buffer) (c : ℕ) : List ℕ :=
  scanReads buf c 2 ++
    match scan buf c 2 with
    | some i => (i + 2) :: if buf (i + 2) = 0x80000008 then [i + 3, i + 4] else []
    | none => []

/-- The tags of a reply, from one to the next until the zero tag. -/
def Tags (buf : Buffer) : ℕ → ℕ → Prop :=
  ReflTransGen fun i j ↦ buf i ≠ 0 ∧ j = nextTag buf i

/-- The tag at `i` is the allocate response of a reply of the length `c`. -/
structure AllocateTag (buf : Buffer) (c i : ℕ) : Prop where
  tags : Tags buf 2 i
  lt : i < c
  tag : buf i = 0x40001

/-- The scan goes from the tag at `i` to the one at `j`. -/
def Visits (buf : Buffer) (c : ℕ) : ℕ → ℕ → Prop :=
  ReflTransGen fun i j ↦ ¬Stops buf i ∧ j = nextTag buf i ∧ j ≤ c

/-- What lies in the message of each tag that the scan comes to, and that a zero
tag does not look like a response. -/
structure Covers (buf : Buffer) (c : ℕ) : Prop where
  skipped : ∀ i, Visits buf c 2 i → ¬Stops buf i → i + 1 < c
  stopped : ∀ i, Visits buf c 2 i → Stops buf i → i + 2 < c
  response : ∀ i, Visits buf c 2 i → Stops buf i → buf (i + 2) = 0x80000008 → buf i ≠ 0 ∧ i + 4 < c

/-- The reply to the set-up is one that is scanned. -/
structure Scanned (fw : Firmware) (buf : Buffer) : Prop where
  resolution : resolutionReply fw buf 1 = 0x80000000
  width : resolutionReply fw buf 5 ≠ 0
  height : resolutionReply fw buf 6 ≠ 0
  setup : setupReply fw buf 1 = 0x80000000

/-- The scan reads nothing behind the message of the length `c`; address and
size come from the allocate response, and without one there is an error. -/
structure ScansTags (fw : Firmware) (buf : Buffer) (fb : FB) (c : ℕ) : Prop where
  reads : ∀ r ∈ replyReads (setupReply fw buf) c, r < c
  taken : ∀ i, takenTag (setupReply fw buf) c = some i → AllocateTag (setupReply fw buf) c i
  stores : ∃ v fb', fbInit fw buf fb = some (v, fb') ∧
    (takenTag (setupReply fw buf) c = none ∧ fb'.base = fb.base ∧ fb'.size = fb.size ∨
      ∃ i, takenTag (setupReply fw buf) c = some i ∧ fb'.size = setupReply fw buf (i + 4) ∧
        (fb'.base = setupReply fw buf (i + 3) ∨ fb'.base = setupReply fw buf (i + 3) + 0xC0000000))
  rejects : (∀ i, ¬AllocateTag (setupReply fw buf) c i) →
    ∃ v fb', fbInit fw buf fb = some (v, fb') ∧ v ≠ intVal Error.SUCCESS.code

variable {buf : Buffer} {c i j r : ℕ} {fw : Firmware}

theorem visits_head : Visits buf c i j ↔
    i = j ∨ ¬Stops buf i ∧ nextTag buf i ≤ c ∧ Visits buf c (nextTag buf i) j := by
  constructor
  · intro h
    rcases h.cases_head with rfl | ⟨k, ⟨hs, rfl, hle⟩, hk⟩
    · exact .inl rfl
    · exact .inr ⟨hs, hle, hk⟩
  · intro h
    rcases h with rfl | ⟨hs, hle, hk⟩
    · exact .refl
    · exact .head ⟨hs, rfl, hle⟩ hk

theorem Visits.tags (h : Visits buf c i j) : Tags buf i j :=
  ReflTransGen.mono (fun _ _ hk ↦ ⟨fun h₀ ↦ hk.1 (.inl h₀), hk.2.1⟩) _ _ h

theorem scan_eq (buf : Buffer) (c i : ℕ) :
    scan buf c i =
      if Stops buf i then some i else if c < nextTag buf i then none else scan buf c (nextTag buf i) := by
  rw [scan]
  rfl

theorem scan_eq_some : scan buf c i = some j ↔ Visits buf c i j ∧ Stops buf j := by
  induction i using scanReads.induct buf c with
  | case1 i hs =>
    rw [scan_eq, if_pos hs, Option.some_inj, visits_head]
    constructor
    · rintro rfl
      exact ⟨.inl rfl, hs⟩
    · intro h
      exact h.1.resolve_right fun hx ↦ hx.1 hs
  | case2 i hs hc =>
    rw [scan_eq, if_neg hs, if_pos hc, visits_head]
    refine iff_of_false (Option.some_ne_none j).symm fun h ↦ ?_
    rcases h with ⟨rfl | ⟨-, hle, -⟩, hj⟩
    · exact hs hj
    · omega
  | case3 i hs hc ih =>
    rw [scan_eq, if_neg hs, if_neg hc, ih, visits_head (i := i)]
    constructor
    · intro h
      exact ⟨.inr ⟨hs, Nat.not_lt.mp hc, h.1⟩, h.2⟩
    · intro h
      rcases h with ⟨rfl | ⟨-, -, hj⟩, hj'⟩
      · exact absurd hj' hs
      · exact ⟨hj, hj'⟩

theorem mem_scanReads : r ∈ scanReads buf c i ↔
    ∃ j, Visits buf c i j ∧ (r = j ∨ ¬Stops buf j ∧ r = j + 1) := by
  induction i using scanReads.induct buf c with
  | case1 i hs =>
    rw [scanReads, if_pos hs, mem_singleton]
    constructor
    · rintro rfl
      exact ⟨r, .refl, .inl rfl⟩
    · intro h
      obtain ⟨j, hj, hr⟩ := h
      rcases visits_head.mp hj with rfl | ⟨hx, -⟩
      · exact hr.resolve_right fun hx ↦ hx.1 hs
      · exact absurd hs hx
  | case2 i hs hc =>
    rw [scanReads, if_neg hs, if_pos hc]
    simp only [mem_cons, not_mem_nil, or_false]
    constructor
    · intro h
      exact ⟨i, .refl, h.imp_right fun hr ↦ ⟨hs, hr⟩⟩
    · intro h
      obtain ⟨j, hj, hr⟩ := h
      rcases visits_head.mp hj with rfl | ⟨-, hle, -⟩
      · exact hr.imp_right And.right
      · omega
  | case3 i hs hc ih =>
    rw [scanReads, if_neg hs, if_neg hc]
    simp only [mem_cons, ih]
    constructor
    · intro h
      rcases h with rfl | rfl | ⟨j, hj, hr⟩
      · exact ⟨r, .refl, .inl rfl⟩
      · exact ⟨i, .refl, .inr ⟨hs, rfl⟩⟩
      · exact ⟨j, visits_head.mpr (.inr ⟨hs, Nat.not_lt.mp hc, hj⟩), hr⟩
    · intro h
      obtain ⟨j, hj, hr⟩ := h
      rcases visits_head.mp hj with rfl | ⟨-, -, hk⟩
      · rcases hr with rfl | ⟨-, rfl⟩
        · exact .inl rfl
        · exact .inr (.inl rfl)
      · exact .inr (.inr ⟨j, hk, hr⟩)

/-- The rest of `fbInit` once the reply is scanned. -/
theorem fbInit_scanned (h : Scanned fw buf) (fb : FB) :
    ∃ v fb', fbInit fw buf fb = some (v, fb') ∧
      (takenTag (setupReply fw buf) setupLength = none ∧ fb'.base = fb.base ∧ fb'.size = fb.size ∧
          v ≠ intVal Error.SUCCESS.code ∨
        ∃ i, takenTag (setupReply fw buf) setupLength = some i ∧ fb'.size = setupReply fw buf (i + 4) ∧
          (fb'.base = setupReply fw buf (i + 3) ∨
            fb'.base = setupReply fw buf (i + 3) + 0xC0000000)) := by
  simp only [fbInit, exchange_resolution, exchange_setup, exchange_pitch, Option.bind_eq_bind,
    Option.bind_some, h.resolution, h.width, h.height, h.setup, ne_eq, not_true_eq_false, or_self, if_false, takenTag]
  cases hs : scan (setupReply fw buf) setupLength 2 with
  | none => exact ⟨_, _, rfl, .inl ⟨rfl, rfl, rfl, by decide⟩⟩
  | some i =>
    simp only [Option.filter_some]
    by_cases hr : setupReply fw buf (i + 2) = 0x80000008
    · rw [if_neg (not_not.mpr hr), if_pos (decide_eq_true hr)]
      split_ifs
      · exact ⟨_, _, rfl, .inr ⟨i, rfl, rfl, .inl rfl⟩⟩
      · exact ⟨_, _, rfl, .inr ⟨i, rfl, rfl, .inr rfl⟩⟩
      · exact ⟨_, _, rfl, .inr ⟨i, rfl, rfl, .inr rfl⟩⟩
      · exact ⟨_, _, rfl, .inr ⟨i, rfl, rfl, .inr rfl⟩⟩
    · rw [if_pos hr, if_neg (by simpa using hr)]
      exact ⟨_, _, rfl, .inl ⟨rfl, rfl, rfl, by decide⟩⟩

theorem takenTag_eq_some : takenTag buf c = some i ↔
    (Visits buf c 2 i ∧ Stops buf i) ∧ buf (i + 2) = 0x80000008 := by
  rw [takenTag, Option.filter_eq_some_iff, scan_eq_some, decide_eq_true_eq]

theorem ScansTags.covers {fb : FB} (h : ScansTags fw buf fb c) : Covers (setupReply fw buf) c := by
  have hresponse : ∀ i, Visits (setupReply fw buf) c 2 i → Stops (setupReply fw buf) i →
      i + 2 ∈ replyReads (setupReply fw buf) c ∧
        (setupReply fw buf (i + 2) = 0x80000008 → i + 4 ∈ replyReads (setupReply fw buf) c) := by
    intro i hi hs
    have hreads : replyReads (setupReply fw buf) c = scanReads (setupReply fw buf) c 2 ++
        (i + 2) :: if setupReply fw buf (i + 2) = 0x80000008 then [i + 3, i + 4] else [] := by
      rw [replyReads, scan_eq_some.mpr ⟨hi, hs⟩]
    rw [hreads]
    refine ⟨mem_append_right _ mem_cons_self, fun hr ↦ mem_append_right _ (mem_cons_of_mem _ ?_)⟩
    rw [if_pos hr]
    exact mem_cons_of_mem _ (mem_singleton_self _)
  refine ⟨fun i hi hs ↦ ?_, fun i hi hs ↦ h.reads _ (hresponse i hi hs).1, fun i hi hs hr ↦ ⟨?_, ?_⟩⟩
  · exact h.reads _ (mem_append_left _ (mem_scanReads.mpr ⟨i, hi, .inr ⟨hs, rfl⟩⟩))
  · have ha := h.taken i (takenTag_eq_some.mpr ⟨⟨hi, hs⟩, hr⟩)
    rw [ha.tag]
    decide
  · exact h.reads _ ((hresponse i hi hs).2 hr)

theorem Covers.allocateTag (h : Covers buf c) (hi : takenTag buf c = some i) : AllocateTag buf c i := by
  obtain ⟨⟨hv, hs⟩, hr⟩ := takenTag_eq_some.mp hi
  obtain ⟨h₀, hlt⟩ := h.response i hv hs hr
  exact ⟨hv.tags, by omega, hs.resolve_left h₀⟩

theorem Covers.reads_lt (h : Covers buf c) : ∀ r ∈ replyReads buf c, r < c := by
  refine forall_mem_append.mpr ⟨fun r hr ↦ ?_, ?_⟩
  · obtain ⟨j, hj, hr⟩ := mem_scanReads.mp hr
    by_cases hs : Stops buf j
    · have hlt := h.stopped j hj hs
      rcases hr with rfl | ⟨hx, -⟩
      · omega
      · exact absurd hs hx
    · have hlt := h.skipped j hj hs
      omega
  · cases hscan : scan buf c 2 with
    | none => exact forall_mem_nil _
    | some i =>
      obtain ⟨hi, hs⟩ := scan_eq_some.mp hscan
      refine forall_mem_cons.mpr ⟨h.stopped i hi hs, ?_⟩
      split_ifs with hr
      · have hlt := (h.response i hi hs hr).2
        exact forall_mem_cons.mpr ⟨by omega, forall_mem_singleton.mpr hlt⟩
      · exact forall_mem_nil _

/-- The scan is right exactly if the tags that it comes to lie in the message,
and a zero tag is not followed by what looks like a response. -/
theorem scansTags_iff (h : Scanned fw buf) (fb : FB) :
    ScansTags fw buf fb setupLength ↔ Covers (setupReply fw buf) setupLength := by
  refine ⟨ScansTags.covers, fun hc ↦ ?_⟩
  obtain ⟨v, fb', hrun, hstores⟩ := fbInit_scanned h fb
  refine ⟨hc.reads_lt, fun i hi ↦ hc.allocateTag hi, ⟨v, fb', hrun, ?_⟩, fun hnone ↦ ⟨v, fb', hrun, ?_⟩⟩
  · rcases hstores with ⟨ht, hb, hs, -⟩ | hx
    · exact .inl ⟨ht, hb, hs⟩
    · exact .inr hx
  · rcases hstores with ⟨-, -, -, hv⟩ | ⟨i, hi, -⟩
    · exact hv
    · exact absurd (hc.allocateTag hi) (hnone i)

def resolutionWords : List UInt32 := [32, 0x80000000, 0x40003, 8, 0x80000008, 640, 480, 0]

/-- A framebuffer for it: the words of the set-up, with all responses filled in. -/
def fullReply : Firmware := .replies [resolutionWords,
  [88, 0x80000000, 0x48003, 8, 0x80000008, 640, 480, 0x48004, 8, 0x80000008, 640, 480,
    0x48005, 4, 0x80000004, 32, 0x40001, 8, 0x80000008, 0x1E000000, 1228800, 0]]

theorem scansTags_full : ScansTags fullReply (fun _ ↦ 0) ⟨0, 0, 0, 0, 0⟩ setupLength := by
  have hscanned : Scanned fullReply fun _ ↦ 0 :=
    ⟨by decide +kernel, by decide +kernel, by decide +kernel, by decide +kernel⟩
  set reply := setupReply fullReply fun _ ↦ 0
  have hvisits : ∀ i, Visits reply setupLength 2 i → i = 2 ∨ i = 7 ∨ i = 12 ∨ i = 16 := by
    intro i hi
    rcases visits_head.mp hi with rfl | ⟨-, -, hi⟩
    · exact .inl rfl
    have h₇ : nextTag reply 2 = 7 := by decide +kernel
    rw [h₇] at hi
    rcases visits_head.mp hi with rfl | ⟨-, -, hi⟩
    · exact .inr (.inl rfl)
    have h₁₂ : nextTag reply 7 = 12 := by decide +kernel
    rw [h₁₂] at hi
    rcases visits_head.mp hi with rfl | ⟨-, -, hi⟩
    · exact .inr (.inr (.inl rfl))
    have h₁₆ : nextTag reply 12 = 16 := by decide +kernel
    rw [h₁₆] at hi
    rcases visits_head.mp hi with rfl | ⟨hs, -⟩
    · exact .inr (.inr (.inr rfl))
    · exact absurd (by decide +kernel) hs
  refine (scansTags_iff hscanned _).mpr ⟨fun i hi _ ↦ ?_, fun i hi _ ↦ ?_, fun i hi _ _ ↦ ?_⟩
  · have hx := hvisits i hi
    unfold setupLength
    omega
  · have hx := hvisits i hi
    unfold setupLength
    omega
  · rcases hvisits i hi with rfl | rfl | rfl | rfl <;> decide +kernel

/-- A reply of a zero tag, and behind it what the request left there. -/
theorem scansTags_wrong : ¬ ∀ (fw : Firmware) (buf : Buffer) (fb : FB), Scanned fw buf →
    ScansTags fw buf fb setupLength := by
  intro h
  have hscanned : Scanned (.replies [resolutionWords, [88, 0x80000000, 0, 8, 0x80000008]]) fun _ ↦ 0 :=
    ⟨by decide +kernel, by decide +kernel, by decide +kernel, by decide +kernel⟩
  have hcovers := (h _ _ ⟨0, 0, 0, 0, 0⟩ hscanned).covers
  exact (hcovers.response 2 .refl (by decide +kernel) (by decide +kernel)).1 (by decide +kernel)

end OcamlRpi.Framebuffer
