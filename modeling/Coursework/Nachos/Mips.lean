import Coursework.Nachos.Machine

/-!
# The instruction tables of the processor

The class `Mips` of `machine/Processor.java`: what an opcode stands for, in which format its
operands are, and the flags that say where they go. A row keeps the order of the source, so
that an index into a table is the opcode field of an instruction. The names of the
instructions are only printed by the disassembler and are left out.
-/

namespace Nachos

namespace Mips

/-- The operation types; several opcodes share one. -/
inductive Operation where
  | invalid | unimpl
  | add | sub | mult | div
  | sll | sra | srl
  | slt | and | or | nor | xor | lui
  | mflo | mfhi | mtlo | mthi
  | jump | beq | bne | blez | bgtz | bltz | bgez
  | syscall
  | load | lwl | lwr | store | swl | swr
  deriving DecidableEq, Repr

/-- The instruction formats; `none` is the zero of a row that gives no format. -/
inductive Format where
  | none | ifmt | jfmt | rfmt
  deriving DecidableEq, Repr

/-- The bits of the field `flags`. -/
inductive Flag where
  | dst | dstra | overflow | src1sh | src2imm | unsigned | link | delayedload
  | sizeb | sizeh | sizew | branch
  deriving DecidableEq, Repr

end Mips

/-- A row of the tables. -/
structure Mips where
  operation : Mips.Operation := .invalid
  format : Mips.Format := .none
  flags : List Mips.Flag := []
  deriving DecidableEq, Repr

namespace Mips

/-- `Mips.optable`, by the field `op`. -/
def optable : List Mips := [
  {},                                                      -- special
  {},                                                      -- reg-imm
  ⟨.jump, .jfmt, [.branch]⟩,                               -- j
  ⟨.jump, .jfmt, [.branch, .link, .dst, .dstra]⟩,          -- jal
  ⟨.beq, .ifmt, [.branch]⟩,                                -- beq
  ⟨.bne, .ifmt, [.branch]⟩,                                -- bne
  ⟨.blez, .ifmt, [.branch]⟩,                               -- blez
  ⟨.bgtz, .ifmt, [.branch]⟩,                               -- bgtz
  ⟨.add, .ifmt, [.dst, .src2imm, .overflow]⟩,              -- addi
  ⟨.add, .ifmt, [.dst, .src2imm]⟩,                         -- addiu
  ⟨.slt, .ifmt, [.dst, .src2imm]⟩,                         -- slti
  ⟨.slt, .ifmt, [.dst, .src2imm, .unsigned]⟩,              -- sltiu
  ⟨.and, .ifmt, [.dst, .src2imm, .unsigned]⟩,              -- andi
  ⟨.or, .ifmt, [.dst, .src2imm, .unsigned]⟩,               -- ori
  ⟨.xor, .ifmt, [.dst, .src2imm, .unsigned]⟩,              -- xori
  ⟨.lui, .ifmt, [.dst, .src2imm, .unsigned]⟩,              -- lui
  {}, {}, {}, {},
  ⟨.beq, .ifmt, [.branch]⟩,                                -- beql
  ⟨.bne, .ifmt, [.branch]⟩,                                -- bnel
  ⟨.blez, .ifmt, [.branch]⟩,                               -- blezl
  ⟨.bgtz, .ifmt, [.branch]⟩,                               -- bgtzl
  {}, {}, {}, {}, {}, {}, {}, {},
  ⟨.load, .ifmt, [.delayedload, .sizeb]⟩,                  -- lb
  ⟨.load, .ifmt, [.delayedload, .sizeh]⟩,                  -- lh
  ⟨.lwl, .ifmt, [.delayedload]⟩,                           -- lwl
  ⟨.load, .ifmt, [.delayedload, .sizew]⟩,                  -- lw
  ⟨.load, .ifmt, [.delayedload, .sizeb, .unsigned]⟩,       -- lbu
  ⟨.load, .ifmt, [.delayedload, .sizeh, .unsigned]⟩,       -- lhu
  ⟨.lwr, .ifmt, [.delayedload]⟩,                           -- lwr
  {},
  ⟨.store, .ifmt, [.sizeb]⟩,                               -- sb
  ⟨.store, .ifmt, [.sizeh]⟩,                               -- sh
  ⟨.swl, .ifmt, []⟩,                                       -- swl
  ⟨.store, .ifmt, [.sizew]⟩,                               -- sw
  {}, {},
  ⟨.swr, .ifmt, []⟩,                                       -- swr
  {},
  ⟨.unimpl, .none, []⟩,                                    -- ll
  {}, {}, {}, {}, {}, {}, {},
  ⟨.unimpl, .none, []⟩,                                    -- sc
  {}, {}, {}, {}, {}, {}, {}]

/-- `Mips.specialtable`, by the field `func` of an instruction with opcode 0. -/
def specialtable : List Mips := [
  ⟨.sll, .rfmt, [.dst, .src1sh]⟩,                          -- sll
  {},
  ⟨.srl, .rfmt, [.dst, .src1sh]⟩,                          -- srl
  ⟨.sra, .rfmt, [.dst, .src1sh]⟩,                          -- sra
  ⟨.sll, .rfmt, [.dst]⟩,                                   -- sllv
  {},
  ⟨.srl, .rfmt, [.dst]⟩,                                   -- srlv
  ⟨.sra, .rfmt, [.dst]⟩,                                   -- srav
  ⟨.jump, .rfmt, [.branch]⟩,                               -- jr
  ⟨.jump, .rfmt, [.branch, .link, .dst]⟩,                  -- jalr
  {}, {},
  ⟨.syscall, .none, []⟩,                                   -- syscall
  ⟨.unimpl, .none, []⟩,                                    -- break
  {},
  ⟨.unimpl, .none, []⟩,                                    -- sync
  ⟨.mfhi, .rfmt, [.dst]⟩,                                  -- mfhi
  ⟨.mthi, .rfmt, []⟩,                                      -- mthi
  ⟨.mflo, .rfmt, [.dst]⟩,                                  -- mflo
  ⟨.mtlo, .rfmt, []⟩,                                      -- mtlo
  {}, {}, {}, {},
  ⟨.mult, .rfmt, []⟩,                                      -- mult
  ⟨.mult, .rfmt, [.unsigned]⟩,                             -- multu
  ⟨.div, .rfmt, []⟩,                                       -- div
  ⟨.div, .rfmt, [.unsigned]⟩,                              -- divu
  {}, {}, {}, {},
  ⟨.add, .rfmt, [.dst, .overflow]⟩,                        -- add
  ⟨.add, .rfmt, [.dst]⟩,                                   -- addu
  ⟨.sub, .rfmt, [.dst, .overflow]⟩,                        -- sub
  ⟨.sub, .rfmt, [.dst]⟩,                                   -- subu
  ⟨.and, .rfmt, [.dst]⟩,                                   -- and
  ⟨.or, .rfmt, [.dst]⟩,                                    -- or
  ⟨.xor, .rfmt, [.dst]⟩,                                   -- xor
  ⟨.nor, .rfmt, [.dst]⟩,                                   -- nor
  {}, {},
  ⟨.slt, .rfmt, [.dst]⟩,                                   -- slt
  ⟨.slt, .rfmt, [.dst, .unsigned]⟩,                        -- sltu
  {}, {}, {}, {}, {}, {}, {}, {}, {}, {}, {}, {}, {}, {}, {}, {}, {}, {}, {}, {}]

/-- `Mips.regimmtable`, by the field `rt` of an instruction with opcode 1. -/
def regimmtable : List Mips := [
  ⟨.bltz, .ifmt, [.branch]⟩,                               -- bltz
  ⟨.bgez, .ifmt, [.branch]⟩,                               -- bgez
  ⟨.bltz, .ifmt, [.branch]⟩,                               -- bltzl
  ⟨.bgez, .ifmt, [.branch]⟩,                               -- bgezl
  {}, {}, {}, {}, {}, {}, {}, {}, {}, {}, {}, {},
  ⟨.bltz, .ifmt, [.branch, .link, .dst, .dstra]⟩,          -- bltzal
  ⟨.bgez, .ifmt, [.branch, .link, .dst, .dstra]⟩,          -- bgezal
  ⟨.bltz, .ifmt, [.branch, .link, .dst, .dstra]⟩,          -- bltzlal
  ⟨.bgez, .ifmt, [.branch, .link, .dst, .dstra]⟩,          -- bgezlal
  {}, {}, {}, {}, {}, {}, {}, {}, {}, {}, {}, {}]

theorem length_optable : optable.length = 2 ^ 6 := rfl

theorem length_specialtable : specialtable.length = 2 ^ 6 := rfl

theorem length_regimmtable : regimmtable.length = 2 ^ 5 := rfl

/-- The row an instruction word selects: the `switch (op)` of `decode`. -/
def info (op : BitVec 6) (rt : BitVec 5) (func : BitVec 6) : Mips :=
  if op = 0 then specialtable.get (func.toFin.cast length_specialtable.symm)
  else if op = 1 then regimmtable.get (rt.toFin.cast length_regimmtable.symm)
  else optable.get (op.toFin.cast length_optable.symm)

/-- All rows. -/
def rows : List Mips := optable ++ specialtable ++ regimmtable

theorem info_mem_rows (op : BitVec 6) (rt : BitVec 5) (func : BitVec 6) :
    info op rt func ∈ rows := by
  simp only [info, rows, List.mem_append]
  split
  · exact Or.inl (Or.inr (List.get_mem _ _))
  · split
    · exact Or.inr (List.get_mem _ _)
    · exact Or.inl (Or.inl (List.get_mem _ _))

/-- `Instruction.test`: does the row have this flag? -/
def test (m : Mips) (flag : Flag) : Bool := m.flags.contains flag

/-- What an instruction may ask of the registers it names, row by row: an instruction that
    writes a register or starts a load has a destination field, one with a size is a load or
    a store and the other way round, and only a load is delayed. -/
structure Consistent (m : Mips) : Prop where
  destination : m.test .dst = true → m.test .dstra = true ∨ m.format = .ifmt ∨ m.format = .rfmt
  delayed : m.test .delayedload = true → m.format = .ifmt ∧ m.test .dstra = false ∧
    m.test .link = false ∧ m.test .dst = false ∧
    (m.operation = .load ∨ m.operation = .lwl ∨ m.operation = .lwr)
  sized : m.operation = .load ∨ m.operation = .store →
    m.test .sizeb = true ∨ m.test .sizeh = true ∨ m.test .sizew = true
  loads : m.operation = .load ∨ m.operation = .lwl ∨ m.operation = .lwr →
    m.test .delayedload = true
  checked : m.test .overflow = true → m.operation = .add ∨ m.operation = .sub

instance (m : Mips) : Decidable (Consistent m) :=
  decidable_of_iff
    ((m.test .dst = true → m.test .dstra = true ∨ m.format = .ifmt ∨ m.format = .rfmt) ∧
      (m.test .delayedload = true → m.format = .ifmt ∧ m.test .dstra = false ∧
        m.test .link = false ∧ m.test .dst = false ∧
        (m.operation = .load ∨ m.operation = .lwl ∨ m.operation = .lwr)) ∧
      (m.operation = .load ∨ m.operation = .store →
        m.test .sizeb = true ∨ m.test .sizeh = true ∨ m.test .sizew = true) ∧
      (m.operation = .load ∨ m.operation = .lwl ∨ m.operation = .lwr →
        m.test .delayedload = true) ∧
      (m.test .overflow = true → m.operation = .add ∨ m.operation = .sub))
    ⟨fun ⟨h1, h2, h3, h4, h5⟩ => ⟨h1, h2, h3, h4, h5⟩, fun h => ⟨h.1, h.2, h.3, h.4, h.5⟩⟩

theorem rows_consistent : ∀ m ∈ rows, Consistent m := by decide +kernel

/-- Every row the decoder can select is consistent. -/
theorem info_consistent (op : BitVec 6) (rt : BitVec 5) (func : BitVec 6) :
    Consistent (info op rt func) :=
  rows_consistent _ (info_mem_rows op rt func)

end Mips

end Nachos
