import OcamlRpi.Boot.Startup
import OcamlRpi.Entry.Vectors

namespace OcamlRpi.Boot

open Support Armv6 Function List
open Arm (Reg)

/-- The loop at the address `v` that only takes time. -/
def wait (v : BitVec 32) : List Instr :=
  [load .r6 0x1000000,
    .alu .sub .r6 .r6 (.imm 1),
    .cmp .r6 (.imm 0),
    .bne v]

def abort (a : BitVec 32) : List Instr :=
  okOutput ++ okLed 40 ++ wait (addr a 10) ++ okLed 28 ++ wait (addr a 17) ++ [.b (addr a 6)]

/-- The stores that turn the LED on and off `n` times, the latest first. -/
def blinks (n : ℕ) : List (BitVec 32 × List (BitVec 32)) :=
  (replicate n [(0xE020001C, [0x10000]), (0xE0200028, [0x10000])]).flatten

/-- Nothing but the registers of `abort` and the memory changed, and the stores `l` were made. -/
structure Stored (is : List Reg) (l : List (BitVec 32 × List (BitVec 32))) (c c' : Cpu) : Prop extends Same is c c' where
  bus : c'.bus = l ++ c.bus

variable {c c' c'' : Cpu} {code : BitVec 32 → Option Instr} {a : BitVec 32} {k n : ℕ} {is : List Instr} {xs : List Reg}
  {l l' : List (BitVec 32 × List (BitVec 32))}

theorem Stored.trans (h : Stored xs l c c') (h' : Stored xs l' c' c'') : Stored xs (l' ++ l) c c'' :=
  ⟨h.toSame.trans h'.toSame, by rw [h'.bus, h.bus, append_assoc]⟩

theorem Stored.goto (h : Stored xs l c c') (v : BitVec 32) : Stored xs l c (c'.goto v) := ⟨h.toSame.goto v, h.bus⟩

/-- One pass of a wait, up to its branch. -/
theorem wait_pass (c : Cpu) (hp : c.pc = addr a 1) :
    let c' := [Instr.alu .sub .r6 .r6 (.imm 1), .cmp .r6 (.imm 0)].foldl Instr.exec c
    c'.pc = addr a 3 ∧ Stored [.r6] [] c c' ∧ c'.get .r6 = c.get .r6 - 1 ∧ c'.cpsr.z = decide (c.get .r6 = 1) := by
  refine ⟨foldl_pc (by simp [Instr.Straight]) hp, ⟨same_block (by simp [Instr.KeepsMode, Instr.writes]) c, rfl⟩, ?_, ?_⟩
  · simp [Instr.exec, Instr.effect, Cpu.set, Cpu.get, Cpu.key, Psr.compare, Operand.eval, Alu.eval]
  · have hz (v : BitVec 32) : v - 1 = 0 ↔ v = 1 := by
      constructor <;> intro h <;> bv_omega
    simp [Instr.exec, Instr.effect, Cpu.set, Cpu.get, Cpu.key, Psr.compare, Operand.eval, Alu.eval]
    exact decide_eq_decide.mpr (hz _)

/-- A wait comes to its end, whatever it is part of. -/
theorem wait_passes (hl : Loaded code a is) (hk : (is.drop k).take 4 = wait (addr a (k + 1))) (hp : c.pc = addr a k) :
    Leads (step code) (fun c' ↦ c'.pc = addr a (k + 4) ∧ Stored [.r6] [] c c') c := by
  have hw : Loaded code (addr a k) (wait (addr a (k + 1))) := hl.slice hk
  have hp₀ : c.pc = addr (addr a k) 0 := hp.trans (addr_zero _).symm
  obtain ⟨hp₁, hs, -, h₆⟩ := load_same c .r6 0x1000000 hp₀
  refine hw.exec hp₀ rfl ?_
  have hbus : ((load .r6 0x1000000).exec c).bus = c.bus := rfl
  generalize (load .r6 0x1000000).exec c = c₁ at *
  have hloop := hw.countdown (k := 3) (c := c₁) (n := 0xFFFFFF) (d := .r6) (E := fun _ c c' ↦ Stored [.r6] [] c c') rfl
    (fun c ↦ ⟨same_refl _ c, rfl⟩) (fun c hp ↦ ?_) (by decide) (hp₁.trans (addr_add _ _ _)) h₆
  · refine hloop.mono fun u hu ↦ ⟨hu.1.trans (addr_add _ _ _), ?_⟩
    have hst : Stored [.r6] [] c c₁ := ⟨hs, hbus⟩
    exact hst.trans hu.2
  · rw [← addr_add] at hp
    obtain ⟨hp', hst, hr, hz⟩ := wait_pass c hp
    exact hw.block hp rfl (by simp [Instr.Straight]) (.here ⟨hp', hr, hz, fun w _ u hu ↦ (hst.goto w).trans hu⟩)

theorem output_pass (c : Cpu) :
    let c' := okOutput.foldl Instr.exec c
    Stored [.r4, .r5, .r6] [(0xE0200004, [c.mem.word 0xE0200004 ||| 0x40000])] c c' ∧ c'.get .r4 = 0xE0200000 := by
  refine ⟨⟨same_block (by simp [okOutput, load, Instr.KeepsMode, Instr.writes]) c, ?_⟩, ?_⟩
  all_goals simp [okOutput, load, Instr.exec, Instr.effect, Cpu.set, Cpu.get, Cpu.put, Cpu.key, Operand.eval, Alu.eval]

theorem led_pass (c : Cpu) (offset : BitVec 32) :
    Stored [.r5] [(c.get .r4 + offset, [0x10000])] c ((okLed offset).foldl Instr.exec c) := by
  refine ⟨same_block (by simp [okLed, load, Instr.KeepsMode, Instr.writes]) c, ?_⟩
  simp [okLed, load, Instr.exec, Instr.effect, Cpu.set, Cpu.get, Cpu.put, Cpu.key, Operand.eval, Alu.eval]

theorem Stored.mono {ys : List Reg} (h : Stored xs l c c') (hxs : xs ⊆ ys) : Stored ys l c c' :=
  ⟨h.toSame.mono hxs, h.bus⟩

/-- The LED goes on and off once. -/
theorem blink (hl : Loaded code a (abort a)) (hp : c.pc = addr a 6) (h₄ : c.get .r4 = 0xE0200000) :
    Leads (step code) (fun c' ↦ c'.pc = addr a 6 ∧
      Stored [.r5, .r6] [(0xE020001C, [0x10000]), (0xE0200028, [0x10000])] c c') c := by
  have hst (offset : BitVec 32) : ∀ i ∈ okLed offset, i.Straight := by simp [okLed, load, Instr.Straight]
  have h₁ := led_pass c 40
  have hp₁ := foldl_pc (hst 40) hp
  refine hl.block hp rfl (hst 40) ?_
  generalize (okLed 40).foldl Instr.exec c = c₁ at *
  refine (wait_passes (k := 9) hl rfl hp₁).trans fun c₂ hc₂ ↦ ?_
  obtain ⟨hp₂, h₂⟩ := hc₂
  have h₃ := led_pass c₂ 28
  have hp₃ := foldl_pc (hst 28) hp₂
  refine hl.block hp₂ rfl (hst 28) ?_
  generalize (okLed 28).foldl Instr.exec c₂ = c₃ at *
  refine (wait_passes (k := 16) hl rfl hp₃).trans fun c₄ hc₄ ↦ ?_
  obtain ⟨hp₄, h₅⟩ := hc₄
  refine hl.exec hp₄ rfl (.here ⟨rfl, ?_⟩)
  rw [h₂.get (by decide), h₁.get (by decide), h₄] at h₃
  rw [h₄] at h₁
  have h₁₂ : Stored [.r5, .r6] _ c c₂ := Stored.trans (h₁.mono (by decide)) (h₂.mono (by decide))
  have h₃₅ : Stored [.r5, .r6] _ c₂ c₄ := Stored.trans (h₃.mono (by decide)) (h₅.mono (by decide))
  exact (h₁₂.trans h₃₅).goto (addr a 6)

/-- The LED blinks for ever. -/
theorem abort_blinks (hl : Loaded code a (abort a)) (hp : c.pc = a) (n : ℕ) :
    Leads (step code) (fun c' ↦ c'.pc = addr a 6 ∧ c'.get .r4 = 0xE0200000 ∧
      Stored [.r4, .r5, .r6] (blinks n ++ [(0xE0200004, [c.mem.word 0xE0200004 ||| 0x40000])]) c c') c := by
  induction n with
  | zero =>
    have hst : ∀ i ∈ okOutput, i.Straight := by simp [okOutput, load, Instr.Straight]
    have hp₀ : c.pc = addr a 0 := hp.trans (addr_zero a).symm
    obtain ⟨h, h₄⟩ := output_pass c
    exact hl.block hp₀ rfl hst (.here ⟨foldl_pc hst hp₀, h₄, h⟩)
  | succ n ih =>
    refine ih.trans fun u hu ↦ (blink hl hu.1 hu.2.1).mono fun w hw ↦ ⟨hw.1, ?_, ?_⟩
    · rw [hw.2.get (by decide), hu.2.1]
    · exact hu.2.2.trans (hw.2.mono (by decide))

/-- The kernel is not halted when it returns, but runs into `abort`. -/
theorem kernel_returned {s : Symbols} (hl : Loaded code a (startKernel a s ++ abort (addr a 70))) (hp : c.pc = addr a 61)
    (n : ℕ) : Leads (step code) (fun c' ↦ c'.pc = addr a 76 ∧ blinks n <+: c'.bus) c := by
  have hst : ∀ i ∈ okOutput ++ okLed 28, i.Straight := by simp [okOutput, okLed, load, Instr.Straight]
  have hp' := foldl_pc hst hp
  have ha : Loaded code (addr a 70) (abort (addr a 70)) := hl.slice (k := 70) rfl
  refine hl.block hp rfl hst ((abort_blinks ha hp' n).mono fun u hu ↦ ⟨hu.1.trans (addr_add _ _ _), ?_⟩)
  rw [hu.2.2.bus, append_assoc]
  exact prefix_append _ _

open Entry in
/-- The stacks that `boot.S` sets up are fit for the frames of exceptions. -/
theorem Ready.hasStack {s : Symbols} (hs : Linked s) (hc : Ready a s c c') (e : Exception) : HasStack e c' := by
  have hbss := hs.bssEnd
  have hstack := hs.stack
  have hfiq := hs.fiq
  have hirq := hs.irq
  have hsvc := hs.svc
  have habt := hs.abt
  have hund := hs.und
  have hfit (v : BitVec 32) (hp : (e.mode, v) ∈ (stackTops s).dropLast) (hv : 64 ≤ v.toNat ∧ v.toNat % 4 = 0) :
      HasStack e c' := by
    have hsp : c'.r (e.mode, .sp) = v := hc.tops _ hp
    rw [← hsp] at hv
    exact ⟨hv.1, hv.2⟩
  cases e with
  | undefined => exact hfit s.undStackEnd (by simp [stackTops, Exception.mode]) (by omega)
  | syscall => exact hfit s.svcStackEnd (by simp [stackTops, Exception.mode]) (by omega)
  | prefetchAbort | dataAbort => exact hfit s.abtStackEnd (by simp [stackTops, Exception.mode]) (by omega)
  | irq => exact hfit s.irqStackEnd (by simp [stackTops, Exception.mode]) (by omega)
  | fiq => exact hfit s.fiqStackEnd (by simp [stackTops, Exception.mode]) (by omega)

open Entry in
/-- An exception other than an interrupt never comes back to the program: when
its handler has returned, the LED blinks for ever. -/
theorem fatal_blinks {t : BitVec 32} {h : Handlers} {e : Exception} (hx : Text code t h)
    (ha : Loaded code h.abort (abort h.abort)) (he : e ≠ .irq) (hsp : 64 ≤ (c.r (e.mode, .sp)).toNat)
    (hh : ∀ u, Entered h t e c u → Leads (step code) (fun w ↦ w.pc = u.get .lr) u) (n : ℕ) :
    Leads (step code) (fun u ↦ Entered h t e c u ∧
      Leads (step code) (fun w ↦ w.pc = addr h.abort 6 ∧ blinks n <+: w.bus) u) (c.raise t e) := by
  have hl := hx.entry e
  rw [leaves, if_neg he] at hl
  refine (entered hx e hsp).leads.mono fun u hu ↦ ⟨hu, (hh u hu).trans fun w hw ↦ ?_⟩
  have hp : w.pc = addr (addr t (entry e)) 6 := by rw [hw, hu.lr, addr_add]
  refine hl.exec hp rfl ((abort_blinks ha rfl n).mono fun v hv ↦ ⟨hv.1, ?_⟩)
  rw [hv.2.2.bus, append_assoc]
  exact prefix_append _ _

open Entry in
theorem fatal_blinks_small :
    let h : Handlers := ⟨4, 4, 4, 4, 4, 4, 4, 0x118⟩
    let code := program 0 ([.b 0, .bx .lr] ++ (exceptionTable 8 ++ (replicate 8 (.b 0) ++ (entries h ++ abort 0x118))))
    let c := reset fun _ ↦ 0
    let c := { c with r := fun _ ↦ 0x1000 }
    Leads (step code) (fun u ↦ Entered h 8 .dataAbort c u ∧
      Leads (step code) (fun w ↦ w.pc = addr 0x118 6 ∧ blinks 3 <+: w.bus) u) (c.raise 8 .dataAbort) := by
  intro h code c c
  have hl : Loaded code 0 _ := loaded_program 0 (by decide)
  have hx : Text code 8 h := ⟨hl.slice (k := 2) rfl, hl.slice (k := 18) rfl⟩
  refine fatal_blinks hx (hl.slice (k := 70) rfl) (by decide) (by decide) (fun u hu ↦ ?_) 3
  exact hl.exec (k := 1) hu.pc rfl (.here rfl)

end OcamlRpi.Boot
