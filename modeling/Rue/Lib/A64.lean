import Rue.Lib.BitField

/-! Part of the A64 instruction set: the instructions, the words that encode
them, the registers they name and what they do. -/

namespace Rue.Lib.A64

abbrev Word := BitVec 32

/-- A register field of an instruction. -/
abbrev Number := BitVec 5

/-- Where a value is kept. The number 31 names no general register. -/
inductive Loc where
  | x (number : Number)
  | sp
  | v (number : Number)
  deriving DecidableEq, Repr

/-- A field in which 31 is the zero register. -/
def orZero (number : Number) : Option Loc := if number = 31 then none else some (.x number)

inductive WideOp where
  | movn
  | movz
  | movk
  deriving DecidableEq, Repr

inductive Mode where
  | offset
  | post
  | pre
  deriving DecidableEq, Repr

/-- What a load or store transfers: its size as a power of two, and for a load
whether the value is sign extended. -/
structure Transfer where
  size : BitVec 2
  vector : Bool
  load : Bool
  signed : Bool
  deriving DecidableEq, Repr

inductive Insn where
  | moveWide (op : WideOp) (hw : BitVec 2) (imm : BitVec 16) (rd : Number)
  | addSubImm (sub flags shifted : Bool) (imm : BitVec 12) (rn rd : Number)
  | addSubReg (wide sub flags : Bool) (rm rn rd : Number)
  | addSubExt (sub : Bool) (rm rn rd : Number)
  | logicReg (wide : Bool) (op : BitVec 2) (invert : Bool) (rm rn rd : Number)
  | eorOne (rn rd : Number)
  | twoSource (wide : Bool) (op : BitVec 6) (rm rn rd : Number)
  | threeSource (wide : Bool) (op : BitVec 3) (sub : Bool) (rm ra rn rd : Number)
  | bitfield (wide signed : Bool) (immr imms : BitVec 6) (rn rd : Number)
  | condIncrement (cond : BitVec 4) (rm rn rd : Number)
  | adrp (imm : BitVec 21) (rd : Number)
  | transfer (what : Transfer) (mode : Mode) (disp : BitVec 64) (rn rt : Number)
  | storePair (disp : BitVec 64) (rt2 rn rt : Number)
  | loadPair (disp : BitVec 64) (rt2 rn rt : Number)
  | b (link : Bool) (imm : BitVec 26)
  | bCond (cond : BitVec 4) (imm : BitVec 19)
  | cb (nonzero : Bool) (imm : BitVec 19) (rt : Number)
  | blr (rn : Number)
  | ret (rn : Number)
  | brk (imm : BitVec 16)
  | svc (imm : BitVec 16)
  | floatOne (width : BitVec 2) (op : BitVec 6) (rn rd : Number)
  | floatTwo (width : BitVec 2) (op : BitVec 4) (rm rn rd : Number)
  | floatCompare (width : BitVec 2) (rm rn : Number)
  | floatOfInt (wide : Bool) (width : BitVec 2) (op : BitVec 5) (rn rd : Number)
  | intOfFloat (wide : Bool) (width : BitVec 2) (op : BitVec 5) (rn rd : Number)
  deriving DecidableEq, Repr

/-- A row of the encoding index: the fixed bits, and what they select. -/
inductive Form where
  | movn | movz | movk
  | addSubImm | addSubReg | addSubExt
  | logicReg | eorOne
  | twoSource | threeSource
  | sbfm | ubfm | sbfm32 | ubfm32
  | csinc | adrp
  | scaled | unscaled | post | pre | stp | ldp
  | b | bCond | cb | blr | ret | brk | svc
  | floatOne | floatTwo | floatCompare | floatInt
  deriving DecidableEq, Repr

structure Row where
  mask : Word
  value : Word
  form : Form
  deriving DecidableEq, Repr

def table : List Row :=
  [⟨0xFF800000, 0x92800000, .movn⟩, ⟨0xFF800000, 0xD2800000, .movz⟩, ⟨0xFF800000, 0xF2800000, .movk⟩,
    ⟨0x9F800000, 0x91000000, .addSubImm⟩, ⟨0x1FE0FC00, 0x0B000000, .addSubReg⟩, ⟨0xBFE0FC00, 0x8B206000, .addSubExt⟩,
    ⟨0x1FC0FC00, 0x0A000000, .logicReg⟩, ⟨0xFFFFFC00, 0xD2400000, .eorOne⟩,
    ⟨0x7FE00000, 0x1AC00000, .twoSource⟩, ⟨0x7F000000, 0x1B000000, .threeSource⟩,
    ⟨0xFFC00000, 0x93400000, .sbfm⟩, ⟨0xFFC00000, 0xD3400000, .ubfm⟩,
    ⟨0xFFE08000, 0x13000000, .sbfm32⟩, ⟨0xFFE08000, 0x53000000, .ubfm32⟩,
    ⟨0xFFE00C00, 0x9A800400, .csinc⟩, ⟨0x9F000000, 0x90000000, .adrp⟩,
    ⟨0x3B000000, 0x39000000, .scaled⟩, ⟨0x3B200C00, 0x38000000, .unscaled⟩,
    ⟨0x3B200C00, 0x38000400, .post⟩, ⟨0x3B200C00, 0x38000C00, .pre⟩,
    ⟨0xFFC00000, 0xA9800000, .stp⟩, ⟨0xFFC00000, 0xA8C00000, .ldp⟩,
    ⟨0x7C000000, 0x14000000, .b⟩, ⟨0xFF000010, 0x54000000, .bCond⟩, ⟨0xFE000000, 0xB4000000, .cb⟩,
    ⟨0xFFFFFC1F, 0xD63F0000, .blr⟩, ⟨0xFFFFFC1F, 0xD65F0000, .ret⟩,
    ⟨0xFFE0001F, 0xD4200000, .brk⟩, ⟨0xFFE0001F, 0xD4000001, .svc⟩,
    ⟨0xFF207C00, 0x1E204000, .floatOne⟩, ⟨0xFF200C00, 0x1E200800, .floatTwo⟩,
    ⟨0xFF20FC1F, 0x1E202000, .floatCompare⟩, ⟨0x7F20FC00, 0x1E200000, .floatInt⟩]

/-- Size, bank and direction of a load or store, where the subset has them. -/
def transferOf (size : BitVec 2) (vector : Bool) (opc : BitVec 2) : Option Transfer :=
  match vector, opc with
  | true, 0 => if 2 ≤ size then some ⟨size, true, false, false⟩ else none
  | true, 1 => if 2 ≤ size then some ⟨size, true, true, false⟩ else none
  | false, 0 => some ⟨size, false, false, false⟩
  | false, 1 => some ⟨size, false, true, false⟩
  | false, 2 => if size = 3 then none else some ⟨size, false, true, true⟩
  | _, _ => none

section Fields
variable (word : Word)

def rd : Number := word.extractLsb' 0 5
def rn : Number := word.extractLsb' 5 5
def ra : Number := word.extractLsb' 10 5
def rm : Number := word.extractLsb' 16 5
def wide : Bool := word.getLsbD 31

def unscaledDisp : BitVec 64 := (word.extractLsb' 12 9).signExtend 64
def pairDisp : BitVec 64 := (word.extractLsb' 15 7).signExtend 64 <<< 3

def transfer? (mode : Mode) (disp : BitVec 64) : Option Insn :=
  (transferOf (word.extractLsb' 30 2) (word.getLsbD 26) (word.extractLsb' 22 2)).map fun what =>
    .transfer what mode disp (rn word) (rd word)

end Fields

def Form.build : Form → Word → Option Insn
  | .movn, w => some (.moveWide .movn (w.extractLsb' 21 2) (w.extractLsb' 5 16) (rd w))
  | .movz, w => some (.moveWide .movz (w.extractLsb' 21 2) (w.extractLsb' 5 16) (rd w))
  | .movk, w => some (.moveWide .movk (w.extractLsb' 21 2) (w.extractLsb' 5 16) (rd w))
  | .addSubImm, w => some (.addSubImm (w.getLsbD 30) (w.getLsbD 29) (w.getLsbD 22) (w.extractLsb' 10 12) (rn w) (rd w))
  | .addSubReg, w => some (.addSubReg (wide w) (w.getLsbD 30) (w.getLsbD 29) (rm w) (rn w) (rd w))
  | .addSubExt, w => some (.addSubExt (w.getLsbD 30) (rm w) (rn w) (rd w))
  | .logicReg, w => some (.logicReg (wide w) (w.extractLsb' 29 2) (w.getLsbD 21) (rm w) (rn w) (rd w))
  | .eorOne, w => some (.eorOne (rn w) (rd w))
  | .twoSource, w => some (.twoSource (wide w) (w.extractLsb' 10 6) (rm w) (rn w) (rd w))
  | .threeSource, w =>
    some (.threeSource (wide w) (w.extractLsb' 21 3) (w.getLsbD 15) (rm w) (ra w) (rn w) (rd w))
  | .sbfm, w => some (.bitfield true true (w.extractLsb' 16 6) (w.extractLsb' 10 6) (rn w) (rd w))
  | .ubfm, w => some (.bitfield true false (w.extractLsb' 16 6) (w.extractLsb' 10 6) (rn w) (rd w))
  | .sbfm32, w => some (.bitfield false true (w.extractLsb' 16 6) (w.extractLsb' 10 6) (rn w) (rd w))
  | .ubfm32, w => some (.bitfield false false (w.extractLsb' 16 6) (w.extractLsb' 10 6) (rn w) (rd w))
  | .csinc, w => some (.condIncrement (w.extractLsb' 12 4) (rm w) (rn w) (rd w))
  | .adrp, w => some (.adrp (w.extractLsb' 5 19 ++ w.extractLsb' 29 2) (rd w))
  | .scaled, w =>
    transfer? w .offset ((w.extractLsb' 10 12).setWidth 64 <<< (w.extractLsb' 30 2).toNat)
  | .unscaled, w => transfer? w .offset (unscaledDisp w)
  | .post, w => transfer? w .post (unscaledDisp w)
  | .pre, w => transfer? w .pre (unscaledDisp w)
  | .stp, w => some (.storePair (pairDisp w) (ra w) (rn w) (rd w))
  | .ldp, w => some (.loadPair (pairDisp w) (ra w) (rn w) (rd w))
  | .b, w => some (.b (w.getLsbD 31) (w.extractLsb' 0 26))
  | .bCond, w => some (.bCond (w.extractLsb' 0 4) (w.extractLsb' 5 19))
  | .cb, w => some (.cb (w.getLsbD 24) (w.extractLsb' 5 19) (rd w))
  | .blr, w => some (.blr (rn w))
  | .ret, w => some (.ret (rn w))
  | .brk, w => some (.brk (w.extractLsb' 5 16))
  | .svc, w => some (.svc (w.extractLsb' 5 16))
  | .floatOne, w => some (.floatOne (w.extractLsb' 22 2) (w.extractLsb' 15 6) (rn w) (rd w))
  | .floatTwo, w => some (.floatTwo (w.extractLsb' 22 2) (w.extractLsb' 12 4) (rm w) (rn w) (rd w))
  | .floatCompare, w => some (.floatCompare (w.extractLsb' 22 2) (rm w) (rn w))
  | .floatInt, w =>
    match w.extractLsb' 16 3 with
    | 2 | 3 | 7 => some (.floatOfInt (wide w) (w.extractLsb' 22 2) (w.extractLsb' 16 5) (rn w) (rd w))
    | 0 | 1 | 6 => some (.intOfFloat (wide w) (w.extractLsb' 22 2) (w.extractLsb' 16 5) (rn w) (rd w))
    | _ => none

/-- The instruction a word encodes, if the subset has it. -/
def decode (word : Word) : Option Insn :=
  (table.find? fun row => word &&& row.mask = row.value).bind fun row => row.form.build word

/-- The row a word selects when only the bits in `known` are known of it. -/
def select (known base : Word) : List Row → Option Form
  | [] => none
  | row :: rest =>
    if base &&& (row.mask &&& known) ≠ row.value &&& (row.mask &&& known) then select known base rest
    else if row.mask &&& known = row.mask ∧ base &&& row.mask = row.value then some row.form
    else none

/-- What is known of a word may already decide how it decodes. -/
theorem decode_of_select {word known base : Word} {form : Form} (agrees : word &&& known = base &&& known)
    (selected : select known base table = some form) : decode word = form.build word := by
  have found : ∀ rows, select known base rows = some form →
      (rows.find? fun row => word &&& row.mask = row.value).bind (fun row => row.form.build word) = form.build word := by
    intro rows selected
    induction rows with
    | nil => cases selected
    | cons row rest ih =>
      rw [select] at selected
      split at selected
      next differ =>
        have passed : ¬word &&& row.mask = row.value := by
          intro same
          apply differ
          have here : word &&& (row.mask &&& known) = base &&& (row.mask &&& known) := by
            rw [BitVec.and_comm row.mask, ← BitVec.and_assoc, agrees, BitVec.and_assoc]
          have value : row.value &&& (row.mask &&& known) = word &&& (row.mask &&& known) := by
            rw [← same, BitVec.and_assoc, ← BitVec.and_assoc row.mask, BitVec.and_self]
          rw [value, here]
        rw [List.find?_cons_of_neg (by simpa using passed)]
        exact ih selected
      next =>
        split at selected
        next matched =>
          cases selected
          have same : word &&& row.mask = row.value := by
            rw [← matched.1, BitVec.and_comm row.mask, ← BitVec.and_assoc, agrees, BitVec.and_assoc, BitVec.and_comm known,
              matched.1, matched.2]
          rw [List.find?_cons_of_pos (by simpa using same)]
          rfl
        next => cases selected
  exact found table selected

section Known
variable {word known base : Word} (agrees : word &&& known = base &&& known)
include agrees

theorem getLsbD_known {bit : Nat} (fixed : known.getLsbD bit) : word.getLsbD bit = base.getLsbD bit := by
  have here := congrArg (BitVec.getLsbD · bit) agrees
  simpa only [BitVec.getLsbD_and, fixed, Bool.and_true] using here

theorem extract_known {start size : Nat} (fixed : known.extractLsb' start size = BitVec.allOnes size) :
    word.extractLsb' start size = base.extractLsb' start size := by
  have here := congrArg (BitVec.extractLsb' start size) agrees
  simpa only [BitVec.extractLsb'_and, fixed, BitVec.and_allOnes] using here

end Known

/-- A value moved to where a field begins. -/
def place {size : Nat} (value : BitVec size) (start : Nat) : Word := value.setWidth 32 <<< start

end Rue.Lib.A64
