import OcamlRpi.Memory.Chunks

namespace OcamlRpi.Memory

open Support Function List DList

variable {h : Heap} {A : Arena} {b : Block} {r : Region} {m : Mem} {c : Client} {s : ℕ}

theorem Block.clog_le_slot_iff : Nat.clog 2 s ≤ b.slot ↔ ∃ k, s ≤ 2 ^ k ∧ 2 ^ k ≤ b.size := by
  have h₈ := b.size_ge
  constructor
  · intro h
    refine ⟨Nat.clog 2 s, Nat.le_pow_clog Nat.one_lt_two s, ?_⟩
    exact (Nat.pow_le_pow_right Nat.two_pos h).trans (Nat.pow_log_le_self 2 (by omega))
  · intro hx
    obtain ⟨k, hk, hkb⟩ := hx
    exact (Nat.clog_le_of_le_pow hk).trans (Nat.le_log_of_pow_le Nat.one_lt_two hkb)

theorem malloc_ne_zero_iff (hr : Represents h A) (hw : A.WF) :
    (malloc h s).2 ≠ 0 ↔
      ∃ b ∈ A.blocks, b.used = false ∧ Nat.clog 2 (roundRequest s) ≤ b.slot := by
  obtain ⟨A', hm, -⟩ := malloc_spec hr hw s
  cases hm with
  | fail none heap ptr =>
    refine ⟨fun hp ↦ absurd ptr hp, fun ⟨b, hb, hu, hle⟩ ↦ ?_⟩
    have hlt := none b hb hu
    omega
  | @whole pre post b l split free head fit lowest tight ptr memFree memUsed memMeta =>
    refine ⟨fun _ ↦ ⟨b, by simp [split], free, fit⟩, fun _ ↦ ?_⟩
    rw [ptr, Block.payload]
    omega
  | @cut pre post b l split free head fit lowest h₈ h₄ room ptr memFree memUsed memMeta =>
    refine ⟨fun _ ↦ ⟨b, by simp [split], free, fit⟩, fun _ ↦ ?_⟩
    rw [ptr, Block.payload]
    omega

/-- The free chunks of the ring among which the search finds one for `s`. -/
def Offers (h : Heap) (s : ℕ) : Prop :=
  ∃ cs, (links h.mem).Ring (h.first :: (cs ++ [h.last])) ∧ ∃ a ∈ cs, isUsed h.mem a = false ∧
    ∃ k, roundRequest s ≤ 2 ^ k ∧ 2 ^ k ≤ memoryChunkSize h.mem a

theorem Represents.offers_iff (hr : Represents h A) (hw : A.WF) : Offers h s ↔
    ∃ b ∈ A.blocks, b.used = false ∧ Nat.clog 2 (roundRequest s) ≤ b.slot := by
  have hring := hr.all
  rw [← hr.ring_eq] at hring
  constructor
  · intro hx
    obtain ⟨cs, hcs, a, ha, hu, hk⟩ := hx
    obtain rfl : cs = A.blocks.map Block.addr := append_cancel_right (hcs.eq_of_head hring)
    obtain ⟨b, hb, rfl⟩ := mem_map.mp ha
    rw [hr.isUsed_eq (Arena.mem_all_of_mem hb)] at hu
    rw [size_of_ring hr.all hw hb] at hk
    exact ⟨b, hb, hu, Block.clog_le_slot_iff.mpr hk⟩
  · intro hx
    obtain ⟨b, hb, hu, hle⟩ := hx
    refine ⟨_, hring, b.addr, mem_map_of_mem hb, ?_, ?_⟩
    · rw [hr.isUsed_eq (Arena.mem_all_of_mem hb), hu]
    · rw [size_of_ring hr.all hw hb]
      exact Block.clog_le_slot_iff.mp hle

/-- After a block was freed, `malloc` of its size succeeds exactly if some
free chunk reaches the next power of two; the freed chunk itself is only sure
to do so if the request was rounded to a power of two. -/
theorem malloc_after_free (hc : Client.Reachable r m c) {b : Handle} (hb : b ∈ c.live) :
    ((malloc (free c.heap b.ptr) b.size).2 ≠ 0 ↔ Offers (free c.heap b.ptr) b.size) ∧
      ((∃ k, roundRequest b.size = 2 ^ k) → (malloc (free c.heap b.ptr) b.size).2 ≠ 0) := by
  obtain ⟨A, hI⟩ := hc.inv
  have hstep : c.step (.free b.ptr) =
      some ⟨free c.heap b.ptr, c.live.filter (·.ptr ≠ b.ptr)⟩ := by
    simp only [Client.step, if_pos (Or.inr (mem_map_of_mem hb))]
  obtain ⟨A', k, hk, hkp, hI', -, -, -, ⟨f, hf, hfu, hfa, hfs⟩, -⟩ :=
    hI.free (hI.ptr_ne_zero hb) hstep
  have hr : Represents (free c.heap b.ptr) A' := hI'.rep
  have hiff := malloc_ne_zero_iff (s := b.size) hr hI'.wf
  refine ⟨hiff.trans (hr.offers_iff hI'.wf).symm, ?_⟩
  intro h
  obtain ⟨n, hn⟩ := h
  refine hiff.mpr ⟨f, hf, hfu, ?_⟩
  have hle := hI.large b hb k hk hkp
  refine Block.clog_le_slot_iff.mpr ⟨n, hn.le, ?_⟩
  simp only [Block.stop] at hfs
  omega

theorem malloc_after_free_small :
    ∃ b ∈ (Client.after .small (fun _ ↦ 0) [.malloc 12, .malloc 16]).live, b.size = 16 ∧
      (malloc (free (Client.after .small (fun _ ↦ 0) [.malloc 12, .malloc 16]).heap b.ptr)
        b.size).2 ≠ 0 := by
  have hx : (Client.after .small (fun _ ↦ 0) [.malloc 12, .malloc 16]).live.any
      (fun b ↦ b.size = 16) := by decide +kernel
  obtain ⟨b, hb, hs⟩ := any_eq_true.mp hx
  have hs : b.size = 16 := of_decide_eq_true hs
  refine ⟨b, hb, hs, (malloc_after_free (Client.reachable_after _ _ _) hb).2 ⟨4, ?_⟩⟩
  rw [hs]
  decide

/-- A chunk of 12 bytes is filed under 8 but searched for from 16 on. -/
theorem malloc_after_free_null : ¬ ∀ (r : Region) (m : Mem) (c : Client), Client.Reachable r m c →
    ∀ b ∈ c.live, b.size ≤ MAX_REQUEST → (malloc (free c.heap b.ptr) b.size).2 ≠ 0 := by
  intro h
  have hx : (Client.after .small (fun _ ↦ 0) [.malloc 12, .malloc 16]).live.any fun b ↦
      b.size ≤ MAX_REQUEST ∧
        (malloc (free (Client.after .small (fun _ ↦ 0) [.malloc 12, .malloc 16]).heap b.ptr)
          b.size).2 = 0 := by decide +kernel
  obtain ⟨b, hb, hx⟩ := any_eq_true.mp hx
  obtain ⟨hs, hz⟩ := of_decide_eq_true hx
  exact h _ _ _ (Client.reachable_after _ _ _) b hb hs hz

end OcamlRpi.Memory
