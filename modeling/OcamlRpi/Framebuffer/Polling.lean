import OcamlRpi.Framebuffer.Mailbox
import OcamlRpi.Support.Schedule

namespace OcamlRpi.Framebuffer.Polling

open Support List

def MAIL_EMPTY : UInt32 := (1 : UInt32) <<< 30

def MAIL_FULL : UInt32 := (1 : UInt32) <<< 31

/-- The letters that fit into a mailbox. -/
def MAIL_DEPTH : ℕ := 8

/-- The letters for the program, those for the firmware, and those that the
firmware has yet to put into the program's mailbox. It has `served` requests so
far. -/
structure Mailbox where
  inbox : List Envelope
  outbox : List Envelope
  coming : List Envelope
  buffer : Buffer
  served : ℕ

namespace Mailbox

variable (m : Mailbox)

def status : UInt32 :=
  (if m.inbox = [] then MAIL_EMPTY else 0) ||| (if MAIL_DEPTH ≤ m.outbox.length then MAIL_FULL else 0)

def mailEmpty : Prop := m.status &&& MAIL_EMPTY ≠ 0

def mailFull : Prop := m.status &&& MAIL_FULL ≠ 0

instance : Decidable m.mailEmpty := inferInstanceAs (Decidable (_ ≠ _))

instance : Decidable m.mailFull := inferInstanceAs (Decidable (_ ≠ _))

/-- The firmware takes a request, and writes to the buffer before it answers. -/
def take (fw : Firmware) : Mailbox :=
  match m.outbox with
  | [] => m
  | e :: es =>
    let reply := fw m.served e m.buffer
    { m with outbox := es, coming := m.coming ++ reply.envelopes, buffer := reply.buffer, served := m.served + 1 }

/-- The firmware puts a letter into the program's mailbox, if there is room. -/
def deliver : Mailbox :=
  match m.coming with
  | [] => m
  | e :: es => if m.inbox.length < MAIL_DEPTH then { m with inbox := m.inbox ++ [e], coming := es } else m

end Mailbox

/-- Where the program is in `mail_write(e); mail_read(FBCHAN);`: before it reads
the status or accesses the mailbox in `mail_write` and in `mail_read`, or behind
them with the address that it got. -/
inductive Point where
  | full (e : Envelope)
  | put (e : Envelope)
  | empty
  | get
  | done (address : UInt32)
deriving DecidableEq

structure State where
  mail : Mailbox
  point : Point

inductive Event where
  | cpu
  | take
  | deliver
deriving DecidableEq

/-- The next access of the program to the mailbox. -/
def access (m : Mailbox) : Point → State
  | .full e => if m.mailFull then ⟨m, .full e⟩ else ⟨m, .put e⟩
  | .put e => ⟨{ m with outbox := m.outbox ++ [e] }, .empty⟩
  | .empty => if m.mailEmpty then ⟨m, .empty⟩ else ⟨m, .get⟩
  | .get =>
    match m.inbox with
    | [] => ⟨m, .get⟩
    | e :: es =>
      if envelopeChannel e = FBCHAN then ⟨{ m with inbox := es }, .done (envelopeAddr e)⟩
      else ⟨{ m with inbox := es }, .empty⟩
  | .done a => ⟨m, .done a⟩

def step (fw : Firmware) (s : State) : Event → State
  | .cpu => access s.mail s.point
  | .take => { s with mail := s.mail.take fw }
  | .deliver => { s with mail := s.mail.deliver }

/-- The letters on the channel of the framebuffer. -/
def answers (es : List Envelope) : List Envelope := es.filter (envelopeChannel · = FBCHAN)

/-- The program waits for a letter, or has seen that there is one. -/
def Waits (m : Mailbox) (p : Point) : Prop := p = .empty ∨ p = .get ∧ m.inbox ≠ []

/-- What is on its way, and what the firmware has done. -/
structure Mailbox.At (m : Mailbox) (outbox as : List Envelope) (buf : Buffer) (n : ℕ) : Prop where
  outbox : m.outbox = outbox
  answers : answers (m.inbox ++ m.coming) = as
  buffer : m.buffer = buf
  served : m.served = n

/-- The stages of the exchange of the request `e`, which is number `n`. -/
inductive Stage (fw : Firmware) (n : ℕ) (e : Envelope) (buf : Buffer) (s : State) : Prop
  | asking (hp : s.point = .full e ∨ s.point = .put e) (hm : s.mail.At [] [] buf n)
  | asked (hp : Waits s.mail s.point) (hm : s.mail.At [e] [] buf n)
  | taken (hp : Waits s.mail s.point)
      (hm : s.mail.At [] (answers (fw n e buf).envelopes) (fw n e buf).buffer (n + 1))
  | answered (a : Envelope) (as : List Envelope) (ha : answers (fw n e buf).envelopes = a :: as)
      (hp : s.point = .done (envelopeAddr a)) (hm : s.mail.At [] as (fw n e buf).buffer (n + 1))

variable {fw : Firmware} {n : ℕ} {e a : Envelope} {es as : List Envelope} {buf : Buffer} {m : Mailbox} {s : State}
  {v : Event} {sched : ℕ → Event}

theorem answers_append (l k : List Envelope) : answers (l ++ k) = answers l ++ answers k := filter_append _ _

theorem answers_cons_of_pos (h : envelopeChannel e = FBCHAN) : answers (e :: es) = e :: answers es :=
  filter_cons_of_pos (decide_eq_true h)

theorem answers_cons_of_neg (h : envelopeChannel e ≠ FBCHAN) : answers (e :: es) = answers es :=
  filter_cons_of_neg (by simpa using h)

namespace Mailbox

theorem mailEmpty_iff : m.mailEmpty ↔ m.inbox = [] := by
  rw [mailEmpty, status]
  split_ifs with hi
  · exact iff_of_true (by decide) hi
  · exact iff_of_true (by decide) hi
  · exact iff_of_false (by decide) hi
  · exact iff_of_false (by decide) hi

theorem mailFull_iff : m.mailFull ↔ MAIL_DEPTH ≤ m.outbox.length := by
  rw [mailFull, status]
  split_ifs with hi hf hf
  · exact iff_of_true (by decide) hf
  · exact iff_of_false (by decide) hf
  · exact iff_of_true (by decide) hf
  · exact iff_of_false (by decide) hf

theorem deliver_cases (m : Mailbox) : (m.deliver = m ∧ (m.coming = [] ∨ MAIL_DEPTH ≤ m.inbox.length)) ∨
    ∃ e es, m.coming = e :: es ∧ m.deliver = { m with inbox := m.inbox ++ [e], coming := es } := by
  rw [deliver]
  split
  · next h => exact .inl ⟨rfl, .inl h⟩
  · next e es h =>
    split_ifs with hr
    · exact .inr ⟨e, es, h, rfl⟩
    · exact .inl ⟨rfl, .inr (Nat.not_lt.mp hr)⟩

theorem At.deliver (h : m.At es as buf n) : m.deliver.At es as buf n := by
  rcases m.deliver_cases with ⟨hd, -⟩ | ⟨c, cs, hc, hd⟩
  · rwa [hd]
  · rw [hd]
    refine ⟨h.outbox, ?_, h.buffer, h.served⟩
    have ha := h.answers
    rw [hc] at ha
    rwa [append_assoc, singleton_append]

theorem take_of_nil (h : m.outbox = []) : m.take fw = m := by
  rw [take, h]

theorem At.take (h : m.At [e] [] buf n) :
    (m.take fw).At [] (Polling.answers (fw n e buf).envelopes) (fw n e buf).buffer (n + 1) := by
  have ht : m.take fw = { m with
      outbox := [], coming := m.coming ++ (fw n e buf).envelopes, buffer := (fw n e buf).buffer, served := n + 1 } := by
    rw [Mailbox.take, h.outbox, h.buffer, h.served]
  rw [ht]
  refine ⟨rfl, ?_, rfl, rfl⟩
  rw [← append_assoc, answers_append, h.answers, nil_append]

end Mailbox

theorem Waits.deliver {p : Point} (h : Waits m p) : Waits m.deliver p := by
  refine h.imp_right fun ⟨hp, hm⟩ ↦ ⟨hp, ?_⟩
  rcases m.deliver_cases with ⟨hd, -⟩ | ⟨c, cs, -, hd⟩
  · rwa [hd]
  · rw [hd]
    simp

theorem Waits.take {p : Point} (h : Waits m p) : Waits (m.take fw) p := by
  refine h.imp_right fun ⟨hp, hm⟩ ↦ ⟨hp, ?_⟩
  rw [Mailbox.take]
  split <;> exact hm

/-- The program takes a letter that is not for it, or gets the first answer. -/
theorem Waits.access {p : Point} (h : Waits m p) (hm : m.At es as buf n) :
    (Waits (access m p).mail (access m p).point ∧ (access m p).mail.At es as buf n) ∨
      ∃ a rest, as = a :: rest ∧ (access m p).point = .done (envelopeAddr a) ∧
        (access m p).mail.At es rest buf n := by
  rcases h with rfl | ⟨rfl, hi⟩
  · left
    rw [Polling.access]
    split_ifs with he
    · exact ⟨.inl rfl, hm⟩
    · exact ⟨.inr ⟨rfl, mt Mailbox.mailEmpty_iff.mpr he⟩, hm⟩
  · obtain ⟨c, cs, hc⟩ := exists_cons_of_ne_nil hi
    have ha := hm.answers
    rw [hc, cons_append] at ha
    simp only [Polling.access, hc]
    split_ifs with hch
    · rw [answers_cons_of_pos hch] at ha
      exact .inr ⟨c, _, ha.symm, rfl, hm.outbox, rfl, hm.buffer, hm.served⟩
    · rw [answers_cons_of_neg hch] at ha
      exact .inl ⟨.inl rfl, hm.outbox, ha, hm.buffer, hm.served⟩

namespace Stage

theorem step_cpu (h : Stage fw n e buf s) : Stage fw n e buf (step fw s .cpu) := by
  cases h with
  | asking hp hm =>
    rw [step]
    rcases hp with hp | hp
    · rw [hp, access]
      split_ifs
      · exact .asking (.inl rfl) hm
      · exact .asking (.inr rfl) hm
    · rw [hp, access]
      refine .asked (.inl rfl) ⟨?_, hm.answers, hm.buffer, hm.served⟩
      rw [hm.outbox, nil_append]
  | asked hp hm =>
    rcases hp.access hm with ⟨hp', hm'⟩ | ⟨a, rest, ha, -⟩
    · exact .asked hp' hm'
    · exact absurd ha (by simp)
  | taken hp hm =>
    rcases hp.access hm with ⟨hp', hm'⟩ | ⟨a, rest, ha, hp', hm'⟩
    · exact .taken hp' hm'
    · exact .answered a rest ha hp' hm'
  | answered a as ha hp hm =>
    rw [step, hp]
    exact .answered a as ha rfl hm

theorem step_take (h : Stage fw n e buf s) : Stage fw n e buf (step fw s .take) := by
  cases h with
  | asking hp hm =>
    rw [step, Mailbox.take_of_nil hm.outbox]
    exact .asking hp hm
  | asked hp hm => exact .taken hp.take hm.take
  | taken hp hm =>
    rw [step, Mailbox.take_of_nil hm.outbox]
    exact .taken hp hm
  | answered a as ha hp hm =>
    rw [step, Mailbox.take_of_nil hm.outbox]
    exact .answered a as ha hp hm

theorem step_deliver (h : Stage fw n e buf s) : Stage fw n e buf (step fw s .deliver) := by
  cases h with
  | asking hp hm => exact .asking hp hm.deliver
  | asked hp hm => exact .asked hp.deliver hm.deliver
  | taken hp hm => exact .taken hp.deliver hm.deliver
  | answered a as ha hp hm => exact .answered a as ha hp hm.deliver

theorem step (h : Stage fw n e buf s) (v : Event) : Stage fw n e buf (step fw s v) := by
  cases v with
  | cpu => exact h.step_cpu
  | take => exact h.step_take
  | deliver => exact h.step_deliver

end Stage

def Point.left : Point → ℕ
  | .full _ => 4
  | .put _ => 3
  | .empty => 2
  | .get => 1
  | .done _ => 0

/-- How much is left to do until the program has its answer. -/
def State.left (fw : Firmware) (n : ℕ) (e : Envelope) (buf : Buffer) (s : State) : ℕ :=
  s.point.left + 3 * s.mail.inbox.length + 4 * s.mail.coming.length +
    if s.mail.served = n then 4 * (fw n e buf).envelopes.length + 1 else 0

def State.Done (s : State) : Prop := ∃ a, s.point = .done a

theorem access_left (m : Mailbox) (p : Point) : access m p = ⟨m, p⟩ ∨
    (access m p).point.left + 3 * (access m p).mail.inbox.length < p.left + 3 * m.inbox.length ∧
      (access m p).mail.coming = m.coming ∧ (access m p).mail.served = m.served := by
  cases p with
  | full e =>
    rw [access]
    split_ifs
    · exact .inl rfl
    · exact .inr ⟨by simp only [Point.left]; omega, rfl, rfl⟩
  | put e => exact .inr ⟨by simp only [access, Point.left]; omega, rfl, rfl⟩
  | empty =>
    rw [access]
    split_ifs
    · exact .inl rfl
    · exact .inr ⟨by simp only [Point.left]; omega, rfl, rfl⟩
  | get =>
    simp only [access]
    split
    · exact .inl rfl
    · next c cs hc =>
      split_ifs
      · exact .inr ⟨by simp only [Point.left, hc, length_cons]; omega, rfl, rfl⟩
      · exact .inr ⟨by simp only [Point.left, hc, length_cons]; omega, rfl, rfl⟩
  | done a => exact .inl rfl

theorem Stage.left (h : Stage fw n e buf s) (v : Event) :
    Polling.step fw s v = s ∨ (Polling.step fw s v).left fw n e buf < s.left fw n e buf := by
  cases v with
  | cpu =>
    rcases access_left s.mail s.point with ha | ⟨hlt, hc, hs⟩
    · exact .inl ha
    · right
      rw [Polling.step, State.left, State.left, hc, hs]
      omega
  | take =>
    cases h with
    | asked hp hm =>
      right
      simp only [Polling.step, State.left, Mailbox.take, hm.outbox, hm.served, hm.buffer, length_append, if_true]
      rw [if_neg (Nat.succ_ne_self n)]
      omega
    | asking hp hm =>
      left
      rw [Polling.step, Mailbox.take_of_nil hm.outbox]
    | taken hp hm =>
      left
      rw [Polling.step, Mailbox.take_of_nil hm.outbox]
    | answered a as ha hp hm =>
      left
      rw [Polling.step, Mailbox.take_of_nil hm.outbox]
  | deliver =>
    rcases s.mail.deliver_cases with ⟨hd, -⟩ | ⟨c, cs, hc, hd⟩
    · left
      rw [Polling.step, hd]
    · right
      simp only [Polling.step, State.left, hd, hc, length_append, length_cons, length_nil]
      omega

theorem deliver_ne (hi : m.inbox = []) (hc : m.coming ≠ []) : m.deliver ≠ m := by
  intro h
  rcases m.deliver_cases with ⟨-, h'⟩ | ⟨c, cs, -, hd⟩
  · refine h'.elim hc fun h' ↦ ?_
    rw [hi] at h'
    exact absurd h' (by decide)
  · have hin : m.deliver.inbox = m.inbox := congrArg Mailbox.inbox h
    rw [hd, hi] at hin
    exact absurd hin (by simp)

theorem Waits.access_ne {p : Point} (h : Waits m p) (hi : m.inbox ≠ []) : Polling.access m p ≠ ⟨m, p⟩ := by
  rcases h with rfl | ⟨rfl, -⟩
  · rw [Polling.access, if_neg (mt Mailbox.mailEmpty_iff.mp hi)]
    exact fun h ↦ Point.noConfusion (congrArg State.point h)
  · obtain ⟨c, cs, hc⟩ := exists_cons_of_ne_nil hi
    simp only [Polling.access, hc]
    split_ifs
    · exact fun h ↦ Point.noConfusion (congrArg State.point h)
    · exact fun h ↦ Point.noConfusion (congrArg State.point h)

/-- As long as the program has no answer, it or the firmware can go on. -/
theorem Stage.exists_move (h : Stage fw n e buf s) (hs : ¬s.Done) : ∃ v, Polling.step fw s v ≠ s := by
  cases h with
  | asking hp hm =>
    refine ⟨.cpu, ?_⟩
    rw [Polling.step]
    rcases hp with hp | hp
    · have hroom : ¬s.mail.mailFull := fun h ↦ absurd (Mailbox.mailFull_iff.mp h) (by rw [hm.outbox]; decide)
      rw [hp, access, if_neg hroom]
      exact fun h ↦ Point.noConfusion ((congrArg State.point h).trans hp)
    · rw [hp, access]
      exact fun h ↦ Point.noConfusion ((congrArg State.point h).trans hp)
  | asked hp hm =>
    refine ⟨.take, fun h ↦ ?_⟩
    have hserved : (s.mail.take fw).served = s.mail.served := congrArg (·.mail.served) h
    rw [hm.take.served, hm.served] at hserved
    exact Nat.succ_ne_self n hserved
  | taken hp hm =>
    by_cases hi : s.mail.inbox = []
    · refine ⟨.deliver, fun h ↦ deliver_ne hi (fun hc ↦ ?_) (congrArg State.mail h)⟩
      obtain ⟨a, hmem, ha⟩ := (fw n e buf).answers
      have hno : answers (fw n e buf).envelopes = [] := by
        rw [← hm.answers, hi, hc]
        rfl
      exact absurd (mem_filter.mpr ⟨hmem, decide_eq_true ha⟩) (by rw [← answers, hno]; exact not_mem_nil)
    · exact ⟨.cpu, hp.access_ne hi⟩
  | answered a as ha hp hm => exact absurd ⟨_, hp⟩ hs

end OcamlRpi.Framebuffer.Polling
