import Chunos.Lib.WordStack

/-!
# The stack frame of a task that is not running

A task gives up the processor with all of its registers in a frame of words on its kernel
stack, and takes it back by popping the frame. Two pieces of assembly write such a frame, and
`arch_set_up_task_stack` writes one in C for a task that has not run yet. Here the assembly is
a list of instructions on a machine with the registers that matter.
-/

namespace Chunos.TaskStack

open WordStack Function List

/-- The general registers. -/
inductive Reg
  | eax | ecx | edx | ebx | esp | ebp | esi | edi
deriving DecidableEq

/-- The segment registers. -/
inductive Seg
  | cs | ss | ds | es | fs | gs
deriving DecidableEq

/-- The machine, as far as switching a task touches it. -/
structure Machine where
  reg : Reg → BitVec 32
  seg : Seg → BitVec 16
  eip : BitVec 32
  eflags : BitVec 32
  mem : Memory

/-- The stack pointer. -/
def Machine.esp (m : Machine) : BitVec 32 := m.reg .esp

/-- Load a general register. -/
def Machine.setReg (m : Machine) (r : Reg) (w : BitVec 32) : Machine :=
  { m with reg := update m.reg r w }

/-- Load a segment register from the low half of a word. -/
def Machine.setSeg (m : Machine) (s : Seg) (w : BitVec 32) : Machine :=
  { m with seg := update m.seg s (w.setWidth 16) }

/-- The word that is `n` bytes above the stack pointer. -/
def Machine.stack (m : Machine) (n : BitVec 32) : BitVec 32 := m.mem (m.esp + n)

/-- Move the stack pointer upwards. -/
def Machine.addEsp (m : Machine) (n : BitVec 32) : Machine := m.setReg .esp (m.esp + n)

/-- Push one word. -/
def Machine.push (m : Machine) (w : BitVec 32) : Machine :=
  { m.setReg .esp (m.esp - 4) with mem := store m.mem (m.esp - 4) w }

@[simp]
theorem Machine.push_reg (m : Machine) (w : BitVec 32) {r : Reg} (hr : r ≠ .esp) :
    (m.push w).reg r = m.reg r := by
  simp [Machine.push, Machine.setReg, hr]

@[simp]
theorem Machine.push_seg (m : Machine) (w : BitVec 32) : (m.push w).seg = m.seg := rfl

/-- The arithmetic flags: carry, parity, adjust, zero, sign and overflow. -/
def arithFlags : BitVec 32 := 0x8d5

/-- The flags that `pushf` stores, which are all but `RF` and `VM`. -/
def storedFlags : BitVec 32 := 0xfcffff

/-- The flags after the result `r` of a sum or a difference of `a` and `b`. -/
def setArith (eflags a b r : BitVec 32) (carry overflow : Bool) : BitVec 32 :=
  let flag (n : ℕ) (set : Bool) : BitVec 32 := if set then 1 <<< n else 0
  (eflags &&& ~~~arithFlags) ||| ((flag 0 carry ||| flag 2 ((range 8).countP r.getLsbD % 2 == 0) |||
    flag 4 ((a ^^^ b ^^^ r).getLsbD 4) ||| flag 6 (r == 0) ||| flag 7 r.msb |||
    flag 11 overflow) &&& arithFlags)

/-- The flags after a sum. -/
def addFlags (eflags a b : BitVec 32) : BitVec 32 :=
  setArith eflags a b (a + b) (a.uaddOverflow b) (a.saddOverflow b)

/-- The flags after a difference. -/
def subFlags (eflags a b : BitVec 32) : BitVec 32 :=
  setArith eflags a b (a - b) (a.usubOverflow b) (a.ssubOverflow b)

/-- The instructions of the two switching paths. `storeStack` and `loadStack` are `mov` to and
from an address relative to the stack pointer. -/
inductive Instr
  | push (r : Reg) | pop (r : Reg) | pushImm (w : BitVec 32)
  | pushSeg (s : Seg) | popSeg (s : Seg)
  | pusha | popa | pushf
  | addEsp (n : BitVec 32) | subEsp (n : BitVec 32)
  | storeStack (r : Reg) (n : BitVec 32) | loadStack (n : BitVec 32) (r : Reg)
  | iret

/-- A selector for code of the user, which is not in ring 0. -/
def isUser (cs : BitVec 16) : Prop := cs &&& 3 ≠ 0

instance (cs : BitVec 16) : Decidable (isUser cs) := inferInstanceAs (Decidable (_ ≠ _))

/-- The part of a return that does not depend on the ring. -/
def Machine.popControl (m : Machine) : Machine :=
  { (m.addEsp 12).setSeg .cs (m.stack 4) with eip := m.stack 0, eflags := m.stack 8 }

/-- A return from ring 0 in protected mode. The stack pointer and its segment are popped too
when the return is to the user. -/
def iret (m : Machine) : Machine :=
  if isUser (m.popControl.seg .cs) then
    (m.popControl.setReg .esp (m.stack 12)).setSeg .ss (m.stack 16)
  else m.popControl

/-- Execute one instruction. -/
def exec : Instr → Machine → Machine
  | .push r, m => m.push (m.reg r)
  | .pop r, m => (m.addEsp 4).setReg r (m.stack 0)
  | .pushImm w, m => m.push w
  | .pushSeg s, m => m.push ((m.seg s).setWidth 32)
  | .popSeg s, m => (m.addEsp 4).setSeg s (m.stack 0)
  | .pusha, m =>
    ((((((((m.push (m.reg .eax)).push (m.reg .ecx)).push (m.reg .edx)).push (m.reg .ebx)).push
      (m.reg .esp)).push (m.reg .ebp)).push (m.reg .esi)).push (m.reg .edi))
  | .popa, m =>
    -- The word for the stack pointer is skipped.
    (((((((m.addEsp 32).setReg .edi (m.stack 0)).setReg .esi (m.stack 4)).setReg .ebp
      (m.stack 8)).setReg .ebx (m.stack 16)).setReg .edx (m.stack 20)).setReg .ecx
      (m.stack 24)).setReg .eax (m.stack 28)
  | .pushf, m => m.push (m.eflags &&& storedFlags)
  | .addEsp n, m => { m.addEsp n with eflags := addFlags m.eflags m.esp n }
  | .subEsp n, m => { m.setReg .esp (m.esp - n) with eflags := subFlags m.eflags m.esp n }
  | .storeStack r n, m => { m with mem := store m.mem (m.esp + n) (m.reg r) }
  | .loadStack n r, m => m.setReg r (m.stack n)
  | .iret, m => iret m

/-- Execute instructions in order. -/
def execAll (code : List Instr) (m : Machine) : Machine := code.foldl (fun m i => exec i m) m

theorem execAll_append (code code' : List Instr) (m : Machine) :
    execAll (code ++ code') m = execAll code' (execAll code m) :=
  foldl_append

/-- The registers of a task as a `pt_regs`. The padding fields are left out. -/
structure PtRegs where
  gs : BitVec 16
  fs : BitVec 16
  ds : BitVec 16
  es : BitVec 16
  ss : BitVec 16
  espCr3 : BitVec 32
  edi : BitVec 32
  esi : BitVec 32
  ebp : BitVec 32
  espCr0 : BitVec 32
  ebx : BitVec 32
  edx : BitVec 32
  ecx : BitVec 32
  eax : BitVec 32
  errorCode : BitVec 32
  eip : BitVec 32
  cs : BitVec 16
  eflags : BitVec 32

/-- The words that `arch_set_up_task_stack` pushes, in order. -/
def taskStackWords (regs : PtRegs) : List (BitVec 32) :=
  [regs.ss.setWidth 32, regs.espCr3, regs.eflags, regs.cs.setWidth 32, regs.eip, regs.errorCode,
    regs.eax, regs.ecx, regs.edx, regs.ebx, regs.espCr0, regs.ebp, regs.esi, regs.esi,
    regs.espCr3, regs.ss.setWidth 32, regs.es.setWidth 32, regs.ds.setWidth 32,
    regs.fs.setWidth 32, regs.gs.setWidth 32]

/-- The `arch_set_up_task_stack` function: the memory, and the new base of the stack. -/
def archSetUpTaskStack (mem : Memory) (stackBase : BitVec 32) (regs : PtRegs) :
    Memory × BitVec 32 :=
  pushAll (taskStackWords regs) (mem, stackBase)

/-- The places of the kernel that take up the next task. -/
inductive Path
  | archSwitchTaskSw | isrCommonStubNec | isrCommonStubEc
deriving DecidableEq

/-- The pops that all paths share. -/
def popRegisters : List Instr :=
  [.popSeg .gs, .popSeg .fs, .popSeg .ds, .popSeg .es, .addEsp 8, .popa]

/-- The instructions of a path from the load of the stack pointer on. The path of the traps
with an error code does not skip the word of the error code. -/
def Path.code : Path → List Instr
  | .archSwitchTaskSw => popRegisters ++ [.addEsp 4, .iret]
  | .isrCommonStubNec => popRegisters ++ [.addEsp 4, .iret]
  | .isrCommonStubEc => popRegisters ++ [.iret]

/-- Take up the task whose stack has its base there: `mov (%ebx), %esp` and what follows. -/
def resume (path : Path) (base : BitVec 32) (m : Machine) : Machine :=
  execAll path.code (m.setReg .esp base)

/-- The machine runs with the registers of a `pt_regs`. -/
@[mk_iff]
structure Loaded (regs : PtRegs) (m : Machine) : Prop where
  gs : m.seg .gs = regs.gs
  fs : m.seg .fs = regs.fs
  ds : m.seg .ds = regs.ds
  es : m.seg .es = regs.es
  edi : m.reg .edi = regs.edi
  esi : m.reg .esi = regs.esi
  ebp : m.reg .ebp = regs.ebp
  ebx : m.reg .ebx = regs.ebx
  edx : m.reg .edx = regs.edx
  ecx : m.reg .ecx = regs.ecx
  eax : m.reg .eax = regs.eax
  eip : m.eip = regs.eip
  cs : m.seg .cs = regs.cs
  eflags : m.eflags = regs.eflags
  user : isUser regs.cs → m.reg .esp = regs.espCr3 ∧ m.seg .ss = regs.ss

/-- What the shared pops leave, in terms of the words on the stack. -/
def Machine.popped (m : Machine) : Machine :=
  { m with
    reg := fun
      | .edi => m.stack 24
      | .esi => m.stack 28
      | .ebp => m.stack 32
      | .ebx => m.stack 40
      | .edx => m.stack 44
      | .ecx => m.stack 48
      | .eax => m.stack 52
      | .esp => m.esp + 56
    seg := fun
      | .gs => (m.stack 0).setWidth 16
      | .fs => (m.stack 4).setWidth 16
      | .ds => (m.stack 8).setWidth 16
      | .es => (m.stack 12).setWidth 16
      | .cs => m.seg .cs
      | .ss => m.seg .ss }

theorem execAll_popRegisters (m : Machine) : execAll popRegisters m =
    { m.popped with eflags := addFlags m.eflags (m.esp + 16) 8 } := by
  simp only [execAll, popRegisters, foldl_cons, foldl_nil, exec, Machine.addEsp,
    Machine.setReg, Machine.setSeg, Machine.stack, Machine.esp, Machine.popped, Machine.mk.injEq,
    update_self, and_true, true_and]
  refine ⟨?_, ?_, by simp [BitVec.add_assoc]⟩
  · funext r
    cases r <;> simp [update, BitVec.add_assoc]
  · funext s
    cases s <;> simp [update, BitVec.add_assoc]

/-- The bytes that a path skips before it returns. -/
def Path.skip : Path → BitVec 32
  | .archSwitchTaskSw => 4
  | .isrCommonStubNec => 4
  | .isrCommonStubEc => 0

theorem iret_eflags (m : Machine) (w : BitVec 32) : iret { m with eflags := w } = iret m := rfl

/-- A path pops the registers, skips some bytes and returns. -/
theorem resume_eq (path : Path) (base : BitVec 32) (m : Machine) :
    resume path base m = iret ((m.setReg .esp base).popped.addEsp path.skip) := by
  have hpops : ∀ rest, execAll (popRegisters ++ rest) (m.setReg .esp base) =
      execAll rest { (m.setReg .esp base).popped with
        eflags := addFlags m.eflags ((m.setReg .esp base).esp + 16) 8 } := by
    intro rest
    rw [execAll_append, execAll_popRegisters]
    rfl
  cases path with
  | archSwitchTaskSw => exact (hpops _).trans (iret_eflags _ _)
  | isrCommonStubNec => exact (hpops _).trans (iret_eflags _ _)
  | isrCommonStubEc =>
    have hstay : (m.setReg .esp base).popped.addEsp 0 = (m.setReg .esp base).popped := by
      simp [Machine.addEsp, Machine.setReg, Machine.esp]
    refine (hpops _).trans ((iret_eflags _ _).trans ?_)
    rw [Path.skip, hstay]

theorem iret_control (m : Machine) :
    (iret m).eip = m.stack 0 ∧ (iret m).eflags = m.stack 8 ∧
      (iret m).seg .cs = (m.stack 4).setWidth 16 := by
  unfold iret
  split_ifs <;> simp [Machine.popControl, Machine.setReg, Machine.setSeg]

theorem iret_other (m : Machine) :
    (∀ r ≠ .esp, (iret m).reg r = m.reg r) ∧
      (∀ s, s ≠ .cs → s ≠ .ss → (iret m).seg s = m.seg s) := by
  unfold iret
  split_ifs <;>
    simp +contextual [Machine.popControl, Machine.addEsp, Machine.setReg, Machine.setSeg]

theorem iret_user (m : Machine) (huser : isUser ((iret m).seg .cs)) :
    (iret m).reg .esp = m.stack 12 ∧ (iret m).seg .ss = (m.stack 16).setWidth 16 := by
  rw [(iret_control m).2.2] at huser
  have hcs : isUser (m.popControl.seg .cs) := by
    simpa [Machine.popControl, Machine.setSeg] using huser
  rw [iret, if_pos hcs]
  simp [Machine.setReg, Machine.setSeg]

/-- The machine after a path has the registers of a `pt_regs` when the words on the stack are
theirs: those of the pops, and behind the skipped bytes those of the return. -/
theorem loaded_resume_iff (path : Path) (base : BitVec 32) (m : Machine) (regs : PtRegs) :
    Loaded regs (resume path base m) ↔
      ((m.mem base).setWidth 16 = regs.gs ∧ (m.mem (base + 4)).setWidth 16 = regs.fs ∧
        (m.mem (base + 8)).setWidth 16 = regs.ds ∧ (m.mem (base + 12)).setWidth 16 = regs.es ∧
        m.mem (base + 24) = regs.edi ∧ m.mem (base + 28) = regs.esi ∧
        m.mem (base + 32) = regs.ebp ∧ m.mem (base + 40) = regs.ebx ∧
        m.mem (base + 44) = regs.edx ∧ m.mem (base + 48) = regs.ecx ∧
        m.mem (base + 52) = regs.eax) ∧
      m.mem (base + (56 + path.skip)) = regs.eip ∧
      (m.mem (base + (60 + path.skip))).setWidth 16 = regs.cs ∧
      m.mem (base + (64 + path.skip)) = regs.eflags ∧
      (isUser regs.cs → m.mem (base + (68 + path.skip)) = regs.espCr3 ∧
        (m.mem (base + (72 + path.skip))).setWidth 16 = regs.ss) := by
  have hstack : ∀ n, ((m.setReg .esp base).popped.addEsp path.skip).stack n =
      m.mem (base + (56 + n + path.skip)) := by
    intro n
    have haddr : base + 56#32 + path.skip + n = base + (56#32 + n + path.skip) := by
      bv_omega
    simp [Machine.stack, Machine.esp, Machine.addEsp, Machine.setReg, Machine.popped, haddr]
  rw [resume_eq]
  obtain ⟨heip, heflags, hcs⟩ := iret_control ((m.setReg .esp base).popped.addEsp path.skip)
  obtain ⟨hreg, hseg⟩ := iret_other ((m.setReg .esp base).popped.addEsp path.skip)
  have huser := iret_user ((m.setReg .esp base).popped.addEsp path.skip)
  simp only [hstack, BitVec.reduceAdd, BitVec.ofNat_eq_ofNat] at heip heflags hcs huser
  rw [loaded_iff, hseg .gs nofun nofun, hseg .fs nofun nofun, hseg .ds nofun nofun,
    hseg .es nofun nofun, hreg .edi nofun, hreg .esi nofun, hreg .ebp nofun, hreg .ebx nofun,
    hreg .edx nofun, hreg .ecx nofun, hreg .eax nofun, heip, hcs, heflags]
  rw [hcs] at huser
  generalize iret ((m.setReg .esp base).popped.addEsp path.skip) = m' at *
  simp only [Machine.addEsp, Machine.setReg, Machine.popped, Machine.stack, Machine.esp,
    update_self, BitVec.ofNat_eq_ofNat, BitVec.add_zero, ne_eq, reduceCtorEq,
    not_false_eq_true, update_of_ne, and_assoc, and_congr_right_iff]
  -- The return pops the stack pointer exactly when the code segment of the task is the user's.
  intro _ _ _ _ _ _ _ _ _ _ _ _ hcode _
  refine forall_congr' fun hring => ?_
  rw [hcode] at huser
  obtain ⟨hesp, hss⟩ := huser hring
  rw [hesp, hss]

theorem sees_archSetUpTaskStack (mem : Memory) (stackBase : BitVec 32) (regs : PtRegs) :
    Sees (archSetUpTaskStack mem stackBase regs).1 (archSetUpTaskStack mem stackBase regs).2
      (taskStackWords regs).reverse := by
  have h : Sees mem stackBase [] := trivial
  have hpush := h.pushAll (taskStackWords regs) (by simp [taskStackWords])
  rw [append_nil] at hpush
  exact hpush

/-- A task that was set up from a `pt_regs` is taken up with its registers exactly when `edi`
is the same as `esi`, since the frame has `esi` in the place of both, and, behind a trap with
an error code, when every word from the error code on is the same as the next one. -/
theorem resume_archSetUpTaskStack_iff (path : Path) (m : Machine) (stackBase : BitVec 32)
    (regs : PtRegs) :
    Loaded regs (resume path (archSetUpTaskStack m.mem stackBase regs).2
        { m with mem := (archSetUpTaskStack m.mem stackBase regs).1 }) ↔
      regs.edi = regs.esi ∧
        (path = .isrCommonStubEc → regs.errorCode = regs.eip ∧
          regs.eip.setWidth 16 = regs.cs ∧ regs.cs.setWidth 32 = regs.eflags ∧
          (isUser regs.cs → regs.eflags = regs.espCr3 ∧ regs.espCr3.setWidth 16 = regs.ss)) := by
  have hsees := sees_archSetUpTaskStack m.mem stackBase regs
  generalize archSetUpTaskStack m.mem stackBase regs = frame at hsees ⊢
  rw [loaded_resume_iff]
  simp only [taskStackWords, reverse_cons, reverse_nil, nil_append,
    cons_append, Sees, BitVec.add_assoc, BitVec.reduceAdd, and_true,
    BitVec.ofNat_eq_ofNat] at hsees ⊢
  obtain ⟨hgs, hfs, hds, hes, -, -, hedi, hesi, hebp, -, hebx, hedx, hecx, heax, herror, heip, hcs,
    heflags, hesp, hss⟩ := hsees
  cases path <;>
    simp [Path.skip, hgs, hfs, hds, hes, hedi, hesi, hebp, hebx, hedx, hecx, heax, herror, heip,
      hcs, heflags, hesp, hss, eq_comm]

/-- A task that was set up with different values of `edi` and `esi`, as a fork copies them from
its parent. -/
def forkedRegs : PtRegs where
  gs := 0x63
  fs := 0x5b
  ds := 0x43
  es := 0x53
  ss := 0x4b
  espCr3 := 0x7ffff000
  edi := 1
  esi := 2
  ebp := 0
  espCr0 := 0
  ebx := 0
  edx := 0
  ecx := 0
  eax := 0
  errorCode := 0
  eip := 0x404000
  cs := 0x3b
  eflags := 0x200

/-- A forked task starts with `esi` in `edi`, whichever machine takes it up. -/
theorem forked_task_loses_edi : let m : Machine := ⟨fun _ => 0, fun _ => 0, 0, 0, fun _ => 0⟩
    let frame := archSetUpTaskStack m.mem 0xc0002000 forkedRegs
    (resume .archSwitchTaskSw frame.2 { m with mem := frame.1 }).reg .edi = 2 ∧ forkedRegs.edi = 1 ∧
      ¬ Loaded forkedRegs (resume .archSwitchTaskSw frame.2 { m with mem := frame.1 }) := by
  refine ⟨by decide +kernel, rfl, fun h => ?_⟩
  have hedi := h.edi
  revert hedi
  decide +kernel

end Chunos.TaskStack
