import OcamlRpi.Printf.Integer
import OcamlRpi.Printf.Overflow
import OcamlRpi.Printf.Sprintf

namespace OcamlRpi.Printf

open Support List

def ascii (s : String) : List UInt8 := s.toList.map Char.toUInt8

/-- What `puts` sends to the UART. -/
def puts : ℕ → Mem → ℕ → Option (List UInt8)
  | 0, _, _ => none
  | n + 1, m, str => if m str = 0 then some [] else (puts n m ((str + 1) % 2 ^ 32)).map (m str :: ·)

/-- A call returns, or ends in `panic`. `sent` is what went to the UART. -/
inductive Outcome where
  | returned (sent : List UInt8) (ret : ℤ)
  | panicked (sent : List UInt8)

/-- `puts("# "); puts(__FUNCTION__); puts("()\n");` -/
def trace (name : String) : List UInt8 := ascii "# " ++ ascii name ++ ascii "()\n"

/-- What `printf`, `fprintf` and `__fprintf_chk` do with their array `buf`, after
they sent `before`. -/
def vprintf (before : List UInt8) (fuel : ℕ) (m : Mem) (buf : ℕ) (fmt : List UInt8) (args : List Arg) :
    Option Outcome := do
  let r ← vsnprintf fuel buf BUF_SIZE fmt args
  if r.ret ≠ -1 ∧ r.ret ≤ BUF_SIZE then
    let sent ← puts fuel (patch m r.written) buf
    some (.returned (before ++ sent) r.ret)
  else some (.panicked (before ++ ascii "printf: too long\n"))

def printf : ℕ → Mem → ℕ → List UInt8 → List Arg → Option Outcome := vprintf []

def fprintf : ℕ → Mem → ℕ → List UInt8 → List Arg → Option Outcome := vprintf (trace "fprintf")

def fprintfChk : ℕ → Mem → ℕ → List UInt8 → List Arg → Option Outcome := vprintf (trace "__fprintf_chk")

def Outcome.Complete (before cs : List UInt8) : Outcome → Prop
  | .returned sent ret => sent = before ++ cs ∧ ret = cs.length
  | .panicked _ => True

/-- The call sends the text `cs` as a whole and returns its length, or panics. -/
def SendsAll (call : ℕ → Option Outcome) (before cs : List UInt8) : Prop :=
  ∃ out, (∃ N, ∀ n, N ≤ n → call n = some out) ∧ out.Complete before cs

variable {m : Mem} {fmt cs before : List UInt8} {args rest : List Arg} {es : List Emission} {n str buf size : ℕ}
  {r : Result} {call : ℕ → Option Outcome} {out : Outcome}

theorem puts_eq (hc : ∀ i, i < cs.length → cs[i]? = some (m (str + i)) ∧ m (str + i) ≠ 0)
    (hend : m (str + cs.length) = 0) (hw : str + cs.length < 2 ^ 32) (hn : cs.length < n) :
    puts n m str = some cs := by
  induction cs generalizing n str with
  | nil =>
    obtain ⟨n, rfl⟩ : ∃ k, n = k + 1 := ⟨n - 1, by omega⟩
    exact if_pos hend
  | cons c cs ih =>
    rw [length_cons] at hw hn hend
    obtain ⟨n, rfl⟩ : ∃ k, n = k + 1 := ⟨n - 1, by omega⟩
    obtain ⟨hm, hne⟩ := hc 0 (Nat.succ_pos _)
    have hmod : (str + 1) % 2 ^ 32 = str + 1 := Nat.mod_eq_of_lt (by omega)
    have hnext : ∀ i, str + 1 + i = str + (i + 1) := by omega
    have hc' : ∀ i, i < cs.length → cs[i]? = some (m (str + 1 + i)) ∧ m (str + 1 + i) ≠ 0 := by
      intro i hi
      rw [hnext]
      exact hc (i + 1) (Nat.succ_lt_succ hi)
    have hrest : puts n m (str + 1) = some cs := ih hc' (by rwa [hnext]) (by omega) (by omega)
    have hstr : m str = c := (Option.some.inj hm).symm
    have hne' : m str ≠ 0 := hne
    rw [puts, if_neg hne', hmod, hrest, hstr]
    rfl

theorem SendsAll.complete (h : SendsAll call before cs) (hc : ∃ N, ∀ n, N ≤ n → call n = some out) :
    out.Complete before cs := by
  obtain ⟨out', hcall, hout⟩ := h
  rwa [result_unique hc hcall]

/-- A text that fills the buffer is cut off by its NUL, and accepted. -/
theorem vprintf_short (ht : Text fmt 0 args es rest) (hne : ∀ c ∈ chars es, c ≠ 0)
    (hhi : buf + BUF_SIZE ≤ RAM_END) (hl : es.length ≤ BUF_SIZE) (before : List UInt8) (m : Mem) :
    ∃ N, ∀ n, N ≤ n → vprintf before n m buf fmt args =
      some (.returned (before ++ (chars es).take (BUF_SIZE - 1)) es.length) := by
  have hB : BUF_SIZE = 4096 := rfl
  have hE : RAM_END = 0xE0000000 := rfl
  obtain ⟨r, ⟨N, hN⟩, hret, -, -, hwr⟩ := ht.truncates (by omega : buf + BUF_SIZE < 2 ^ 32) (fits_of_length_le hl) (by omega)
  obtain ⟨htext, hend⟩ := hwr (by omega)
  have hlen : ((chars es).take (BUF_SIZE - 1)).length = min (BUF_SIZE - 1) es.length := by
    rw [length_take, length_chars]
  have hret' : r.ret = es.length := by
    rw [hret, int_self] <;> omega
  refine ⟨max N (BUF_SIZE + 1), fun n hn ↦ ?_⟩
  have hputs : puts n (patch m r.written) buf = some ((chars es).take (BUF_SIZE - 1)) := by
    refine puts_eq (fun i hi ↦ ?_) ?_ (by omega) (by omega)
    · rw [hlen] at hi
      obtain ⟨c, hget⟩ : ∃ c, (chars es)[i]? = some c :=
        ⟨_, getElem?_eq_getElem (by rw [length_chars]; omega)⟩
      rw [getElem?_take_of_lt (by omega), patch, htext i hi, hget]
      exact ⟨rfl, hne c (mem_of_getElem? hget)⟩
    · rw [hlen, patch, hend]
      rfl
  rw [vprintf, hN n (by omega)]
  simp only [Option.bind_eq_bind, Option.bind_some, hputs, hret']
  rw [if_pos (by omega)]

/-- A longer text makes it panic, as the length that `vsnprintf` counts only is
negative after it wrote over all of the memory. -/
theorem vprintf_long (ht : Text fmt 0 args es rest) (hlo : VIRT_BASE ≤ buf) (hhi : buf + BUF_SIZE ≤ RAM_END)
    (hr : Returns fmt args buf BUF_SIZE r) (hm : ∀ a, r.written a ≠ none → Mapped a)
    (hl : BUF_SIZE < es.length) (before : List UInt8) (m : Mem) :
    ∃ N, ∀ n, N ≤ n → vprintf before n m buf fmt args =
      some (.panicked (before ++ ascii "printf: too long\n")) := by
  have hB : BUF_SIZE = 4096 := rfl
  have hE : RAM_END = 0xE0000000 := rfl
  have hV : VIRT_BASE = 0xC0000000 := rfl
  obtain ⟨hstop, -⟩ := room_start (by omega : buf + BUF_SIZE < 2 ^ 32)
  obtain ⟨N, hN⟩ := hr
  have hstart : (Out.start buf BUF_SIZE).buf = buf := rfl
  have hin : (Out.start buf BUF_SIZE).Inside := ⟨by omega, rfl, by omega, by omega⟩
  obtain ⟨rest', cs, rfl, hlen⟩ := ht.overflows (P := fun q ↦ finish buf BUF_SIZE q.1 q.2 = r) hin (by omega)
    ⟨N, fun n hn ↦ Option.map_eq_some_iff.mp (hN n hn)⟩
  have hshort : cs.length < 2 ^ 31 := by
    by_contra hge
    have hw : ((Out.start buf BUF_SIZE).adds cs).written 0x10000000 ≠ none :=
      Out.adds_wraps (by omega) (by omega) (by omega) (by omega)
    have hmap := hm _ (finish_keeps hw buf BUF_SIZE rest')
    unfold Mapped at hmap
    omega
  have hcount : (finish buf BUF_SIZE rest' ((Out.start buf BUF_SIZE).adds cs)).ret = int cs.length :=
    finish_ret_mod (Out.adds_buf_mod (.start buf BUF_SIZE) cs)
  have hret : (finish buf BUF_SIZE rest' ((Out.start buf BUF_SIZE).adds cs)).ret = cs.length := by
    rw [hcount, int_self] <;> omega
  refine ⟨N, fun n hn ↦ ?_⟩
  rw [vprintf, hN n hn]
  simp only [Option.bind_eq_bind, Option.bind_some, hret]
  rw [if_neg (by omega)]

theorem vprintf_complete_iff (ht : Text fmt 0 args es rest) (hne : ∀ c ∈ chars es, c ≠ 0)
    (hlo : VIRT_BASE ≤ buf) (hhi : buf + BUF_SIZE ≤ RAM_END) (hr : Returns fmt args buf BUF_SIZE r)
    (hm : ∀ a, r.written a ≠ none → Mapped a) (before : List UInt8) (m : Mem) :
    SendsAll (fun n ↦ vprintf before n m buf fmt args) before (chars es) ↔ es.length ≠ BUF_SIZE := by
  have hB : BUF_SIZE = 4096 := rfl
  by_cases hl : BUF_SIZE < es.length
  · exact iff_of_true ⟨_, vprintf_long ht hlo hhi hr hm hl before m, trivial⟩ (by omega)
  · have hshort := vprintf_short ht hne hhi (by omega) before m
    constructor
    · intro h hlen
      have hsent := congrArg List.length (h.complete hshort).1
      rw [length_append, length_append, length_take, length_chars] at hsent
      omega
    · intro hlen
      refine ⟨_, hshort, ?_, by rw [length_chars]⟩
      rw [take_of_length_le (by rw [length_chars]; omega)]

/-- The three copies of the test for an overlong text are right but for one
length: the buffer needs one more byte for the NUL. -/
theorem printf_complete_iff (ht : Text fmt 0 args es rest) (hne : ∀ c ∈ chars es, c ≠ 0)
    (hlo : VIRT_BASE ≤ buf) (hhi : buf + BUF_SIZE ≤ RAM_END) (hr : Returns fmt args buf BUF_SIZE r)
    (hm : ∀ a, r.written a ≠ none → Mapped a) (m : Mem) :
    (SendsAll (fun n ↦ printf n m buf fmt args) [] (chars es) ↔ es.length ≠ BUF_SIZE) ∧
      (SendsAll (fun n ↦ fprintf n m buf fmt args) (trace "fprintf") (chars es) ↔ es.length ≠ BUF_SIZE) ∧
      (SendsAll (fun n ↦ fprintfChk n m buf fmt args) (trace "__fprintf_chk") (chars es) ↔
        es.length ≠ BUF_SIZE) :=
  ⟨vprintf_complete_iff ht hne hlo hhi hr hm _ m, vprintf_complete_iff ht hne hlo hhi hr hm _ m,
    vprintf_complete_iff ht hne hlo hhi hr hm _ m⟩

theorem returns_mapped (ht : Text fmt 0 args es rest) (hlo : VIRT_BASE ≤ buf) (hhi : buf + BUF_SIZE ≤ RAM_END)
    (hl : es.length ≤ BUF_SIZE) : ∃ r, Returns fmt args buf BUF_SIZE r ∧ ∀ a, r.written a ≠ none → Mapped a := by
  have hB : BUF_SIZE = 4096 := rfl
  have hE : RAM_END = 0xE0000000 := rfl
  obtain ⟨r, hr, -, -, hin, -⟩ := ht.truncates (by omega : buf + BUF_SIZE < 2 ^ 32) (fits_of_length_le hl) (by omega)
  exact ⟨r, hr, fun a ha ↦ .inr (Nat.le_trans hlo (hin a ha).1)⟩

theorem printf_complete_small :
    SendsAll (fun n ↦ printf n (fun _ ↦ 0) VIRT_BASE [37, 100] [.int 123]) [] [49, 50, 51] := by
  have hne : ∀ c ∈ chars [.moves 49, .moves 50, .moves 51], c ≠ 0 :=
    forall_mem_cons.mpr ⟨by decide, forall_mem_cons.mpr ⟨by decide, forall_mem_singleton.mpr (by decide)⟩⟩
  obtain ⟨r, hr, hm⟩ := returns_mapped text_number (le_refl VIRT_BASE) (by decide) (by decide)
  exact (printf_complete_iff text_number hne (le_refl _) (by decide) hr hm _).1.mpr (by decide)

theorem text_literals (pre : List UInt8) (hc : ∀ c ∈ cs, c ≠ 0 ∧ c ≠ '%'.toUInt8) (args : List Arg) :
    Text (pre ++ cs) pre.length args (cs.map .plain) args := by
  induction cs generalizing pre with
  | nil => exact .stop (by simp [byte])
  | cons c cs ih =>
    obtain ⟨h₀, h⟩ := hc c mem_cons_self
    have hb : byte (pre ++ c :: cs) pre.length = c := by simp [byte]
    have hrest : Text (pre ++ [c] ++ cs) (pre ++ [c]).length args (cs.map .plain) args :=
      ih _ fun d hd ↦ hc d (mem_cons_of_mem c hd)
    rw [append_assoc, singleton_append, length_append, length_singleton] at hrest
    have ht := Text.literal (by rwa [hb]) (by rwa [hb]) hrest
    rwa [hb] at ht

/-- 4096 times `a`. -/
theorem printf_complete_wrong : ¬ ∀ (fmt : List UInt8) (args rest : List Arg) (es : List Emission) (buf : ℕ)
    (r : Result) (m : Mem), Text fmt 0 args es rest → (∀ c ∈ chars es, c ≠ 0) → VIRT_BASE ≤ buf →
    buf + BUF_SIZE ≤ RAM_END → Returns fmt args buf BUF_SIZE r → (∀ a, r.written a ≠ none → Mapped a) →
    SendsAll (fun n ↦ printf n m buf fmt args) [] (chars es) := by
  intro h
  have hc : ∀ c ∈ replicate BUF_SIZE 97, c ≠ 0 ∧ c ≠ '%'.toUInt8 := by
    intro c hc
    rw [(mem_replicate.mp hc).2]
    decide
  have ht : Text (replicate BUF_SIZE 97) 0 [] ((replicate BUF_SIZE 97).map .plain) [] :=
    text_literals [] hc []
  have hne : ∀ c ∈ chars ((replicate BUF_SIZE 97).map .plain), c ≠ 0 := by
    rw [chars_map_plain]
    exact fun c h ↦ (hc c h).1
  have hlen : ((replicate BUF_SIZE (97 : UInt8)).map Emission.plain).length = BUF_SIZE := by
    rw [length_map, length_replicate]
  obtain ⟨r, hr, hm⟩ := returns_mapped ht (le_refl VIRT_BASE) (by decide) (by rw [hlen])
  have hx := h _ _ _ _ _ r (fun _ ↦ 0) ht hne (le_refl VIRT_BASE) (by decide) hr hm
  exact (vprintf_complete_iff ht hne (le_refl _) (by decide) hr hm [] _).mp hx hlen

end OcamlRpi.Printf
