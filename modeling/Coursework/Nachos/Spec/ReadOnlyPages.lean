import Coursework.Nachos.Spec.UserCalls
import Coursework.Nachos.Spec.VMCalls

/-!
# Read-only pages in runs of system calls

Neither `verifyVaddr` looks at the bit `readOnly`, so `read` and `join` write to pages of the
code. In runs whose `read`s and `join`s keep away from such pages, or fail before they come to
one, no read-only page changes, in both classes of processes.
-/

namespace Nachos

open ProcessClass (HarmlessRun ReadOnlyKept)

/-- In a run of harmless system calls the read-only pages of every process keep their bytes once
    it is loaded, and a `read` with a buffer that touches such a page returns -1. -/
theorem run_readOnlyKept {n : Nat} (hn : 0 < n) (harray : n * pageSize < 2 ^ 31)
    (memory : Nat → UInt8) (ioBlocks : Bool) (calls : List Call) :
    (HarmlessRun UserProcess.userProcess (UserProcess.boot n memory) calls →
      ReadOnlyKept UserProcess.userProcess (UserProcess.boot n memory) calls) ∧
    (HarmlessRun Kernel.vmProcess (Kernel.initKernel n ioBlocks) calls →
      ReadOnlyKept Kernel.vmProcess (Kernel.initKernel n ioBlocks) calls) := by
  constructor
  · intro hharmless
    exact hharmless.readOnlyKept UserProcess.userProcess_contract
      (UserProcess.inOrder_boot harray memory)
  · intro hharmless
    exact hharmless.readOnlyKept Kernel.vmProcess_contract (Kernel.sheltered_initKernel hn ioBlocks)

/-- An executable of one page of code, all of its bytes 1, and no data. -/
def codeFile : CoffFile where
  coff := ⟨[⟨fun _ => 1, 128, 1024, 0, true, true⟩, ⟨fun _ => 1, 1152, 0, 1, true, false⟩], 0, 1152⟩
  firstVPN_lt := by simp
  size_lt := by simp

/-- Two bytes of a file are read into the stack, then a `read` into the code fails, a `join` has a
    negative address, and the process exits. -/
def readsAndExit : List Call :=
  [.load (some codeFile) [], .read 0 (some [some [7, 8]]) 1024 2, .read 0 (some [none]) 0 1,
    .join 0 (-1) (some 5), .exit 0]

/-- The calls are harmless when the page of the stack is writable. -/
theorem readsAndExit_harmless {σ : Type} (C : ProcessClass σ) (s : σ)
    (h : (C.step s (.load (some codeFile) [])).map (fun x => !C.readOnly x.2 0 1) = .ok true) :
    HarmlessRun C s readsAndExit := by
  obtain ⟨⟨r, s₁⟩, hload, hwritable⟩ := Except.exists_of_map_eq_ok _ h
  refine ⟨trivial, fun r' s' hstep => ?_⟩
  obtain rfl : s₁ = s' := congrArg Prod.snd (Except.ok.inj (hload.symm.trans hstep))
  refine ⟨?_, fun _ _ _ => ⟨?_, fun _ _ _ => ⟨?_, fun _ _ _ => ⟨trivial, fun _ _ _ => trivial⟩⟩⟩⟩
  · -- both bytes go to page 1
    rintro - answers -
    left
    rintro ⟨i, hi, -, hro⟩
    change i < 2 at hi
    have hpage : toUnsigned ((1024 : BitVec 32).toInt + i) / pageSize = 1 := by
      rcases (show i = 0 ∨ i = 1 by omega) with rfl | rfl <;> decide
    rw [hpage] at hro
    simp [hro] at hwritable
  · intro _ answers h
    obtain rfl := Option.some.inj h
    exact Or.inr (.fails (by decide))
  · intro _ status _ _ _ had
    exact absurd had.1 (by decide)

theorem run_readOnlyKept_failing_read :
    ReadOnlyKept UserProcess.userProcess (UserProcess.boot 20 fun _ => 0) readsAndExit ∧
      ReadOnlyKept Kernel.vmProcess (Kernel.initKernel 20 true) readsAndExit ∧
      ((UserProcess.userProcess.run (UserProcess.boot 20 fun _ => 0) (readsAndExit.take 2)).map
        fun s => UserProcess.userProcess.byteAt s 0 1025) = .ok (some 8) :=
  ⟨(run_readOnlyKept (by decide) (by decide) (fun _ => 0) true _).1
      (readsAndExit_harmless _ _ (by decide +kernel)),
    (run_readOnlyKept (by decide) (by decide) (fun _ => 0) true _).2
      (readsAndExit_harmless _ _ (by decide +kernel)), by decide +kernel⟩

/-- A byte of a read-only page is another one after the second calls. -/
theorem not_readOnlyKept_of_byteAt {σ : Type} {C : ProcessClass σ} {s₀ : σ}
    (before after : List Call) (p a : Nat)
    (h : ((C.run s₀ before >>= fun s => C.run s after >>= fun s' => .ok (s, s')).map fun x =>
      C.isLive x.1 p && C.isLive x.2 p && decide (a / pageSize < C.numPages x.1 p) &&
        C.readOnly x.1 p (a / pageSize) && C.byteAt x.2 p a != C.byteAt x.1 p a) = .ok true) :
    ¬ ReadOnlyKept C s₀ (before ++ after) := by
  intro hkept
  obtain ⟨⟨s, s'⟩, hrun, htest⟩ := Except.exists_of_map_eq_ok _ h
  obtain ⟨s₁, hbefore, hrun⟩ := Except.bind_eq_ok.mp hrun
  obtain ⟨s₂, hafter, hrun⟩ := Except.bind_eq_ok.mp hrun
  obtain ⟨rfl, rfl⟩ := Prod.mk.inj (Except.ok.inj hrun)
  simp only [Bool.and_eq_true, decide_eq_true_eq, bne_iff_ne] at htest
  obtain ⟨⟨⟨⟨hl, hl'⟩, ha⟩, hro⟩, hne⟩ := htest
  exact hne (hkept.bytes before after s₁ s₂ rfl hbefore hafter p hl hl' a ha hro).2

/-- One byte of a file is read into the first page of the code. -/
theorem not_readOnlyKept_code_page :
    ¬ ReadOnlyKept UserProcess.userProcess (UserProcess.boot 20 fun _ => 0)
      [.load (some codeFile) [], .read 0 (some [some [7]]) 0 1] ∧
    ¬ ReadOnlyKept Kernel.vmProcess (Kernel.initKernel 2 true)
      [.load (some codeFile) [], .read 0 (some [some [7]]) 0 1] :=
  ⟨not_readOnlyKept_of_byteAt [.load (some codeFile) []] [.read 0 (some [some [7]]) 0 1] 0 0
      (by decide +kernel),
    not_readOnlyKept_of_byteAt [.load (some codeFile) []] [.read 0 (some [some [7]]) 0 1] 0 0
      (by decide +kernel)⟩

end Nachos
