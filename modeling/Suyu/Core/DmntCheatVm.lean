import Mathlib

/-
  `DmntCheatVm`: the interpreter of cheat programs.

  1. **Program** - a program is a list of words.  `decodeNextOpcode` reads one instruction of one to
     four words at the instruction pointer; `step` is one round of the loop of `Execute`;
     `skipConditionalBlock` decodes forwards to the end of a block, or to its `else`.

  2. **State** - what can be seen from outside is the `Store`: the registers, and the calls to the
     process in their order.  The process answers a read as it likes, by the calls so far.  The
     instruction pointer, the depth and the tops of the loops belong to the interpreter alone.

  What `CommandLog` prints about each instruction is left out, and so are the fields that are only
  printed.  A shift by 64 or more, which the language leaves open, gives zero.
-/

namespace Suyu.Core.DmntCheatVm

/-! ## Instructions -/

abbrev Word := BitVec 32
abbrev Value := BitVec 64
/-- A field of four bits: a register, a bit width. -/
abbrev Nybble := Fin 16

inductive MemoryAccessType where
  | mainNso
  | heap
  | alias
  | aslr
deriving DecidableEq

inductive ConditionalComparisonType where
  | gt
  | ge
  | lt
  | le
  | eq
  | ne
deriving DecidableEq

inductive RegisterArithmeticType where
  | addition
  | subtraction
  | multiplication
  | leftShift
  | rightShift
  | logicalAnd
  | logicalOr
  | logicalNot
  | logicalXor
  | none
deriving DecidableEq

inductive StoreRegisterOffsetType where
  | none
  | reg
  | imm
  | memReg
  | memImm
  | memImmReg
deriving DecidableEq

inductive CompareRegisterValueType where
  | memoryRelAddr
  | memoryOfsReg
  | registerRelAddr
  | registerOfsReg
  | staticValue
  | otherRegister
deriving DecidableEq

inductive SaveRestoreRegisterOpType where
  | restore
  | save
  | clearSaved
  | clearRegs
deriving DecidableEq

inductive DebugLogValueType where
  | memoryRelAddr
  | memoryOfsReg
  | registerRelAddr
  | registerOfsReg
  | registerValue
deriving DecidableEq

/-- The types of instructions without the two meta entries. -/
inductive CheatVmOpcodeType where
  | storeStatic
  | beginConditionalBlock
  | endConditionalBlock
  | controlLoop
  | loadRegisterStatic
  | loadRegisterMemory
  | storeStaticToAddress
  | performArithmeticStatic
  | beginKeypressConditionalBlock
  | performArithmeticRegister
  | storeRegisterToAddress
  | beginRegisterConditionalBlock
  | saveRestoreRegister
  | saveRestoreRegisterMask
  | readWriteStaticRegister
  | pauseProcess
  | resumeProcess
  | debugLog
deriving DecidableEq

/-- A decoded instruction; a field that has no case of its `enum` is `none`, unless the `default` of
    every `switch` over it treats it as one of the cases. -/
inductive CheatVmOpcode where
  | storeStatic (bitWidth : Nybble) (memType : MemoryAccessType) (offsetRegister : Nybble)
      (relAddress value : Value)
  | beginConditional (bitWidth : Nybble) (memType : MemoryAccessType)
      (condType : Option ConditionalComparisonType) (relAddress value : Value)
  | endConditional (isElse : Bool)
  | controlLoop (startLoop : Bool) (regIndex : Nybble) (numIters : Word)
  | loadRegisterStatic (regIndex : Nybble) (value : Value)
  | loadRegisterMemory (bitWidth : Nybble) (memType : MemoryAccessType) (regIndex : Nybble)
      (loadFromReg : Bool) (relAddress : Value)
  | storeStaticToAddress (bitWidth regIndex : Nybble) (incrementReg addOffsetReg : Bool)
      (offsetRegIndex : Nybble) (value : Value)
  | performArithmeticStatic (bitWidth regIndex : Nybble) (mathType : Option RegisterArithmeticType)
      (value : Word)
  | beginKeypressConditional (keyMask : Word)
  | performArithmeticRegister (bitWidth : Nybble) (mathType : Option RegisterArithmeticType)
      (dstRegIndex srcReg1Index srcReg2Index : Nybble) (hasImmediate : Bool) (value : Value)
  | storeRegisterToAddress (bitWidth strRegIndex addrRegIndex : Nybble) (incrementReg : Bool)
      (ofsType : StoreRegisterOffsetType) (memType : MemoryAccessType) (ofsRegIndex : Nybble)
      (relAddress : Value)
  | beginRegisterConditional (bitWidth : Nybble) (condType : Option ConditionalComparisonType)
      (valRegIndex : Nybble) (compType : Option CompareRegisterValueType)
      (memType : MemoryAccessType) (addrRegIndex otherRegIndex ofsRegIndex : Nybble)
      (relAddress value : Value)
  | saveRestoreRegister (dstIndex srcIndex : Nybble) (opType : SaveRestoreRegisterOpType)
  | saveRestoreRegisterMask (opType : SaveRestoreRegisterOpType) (shouldOperate : Nybble → Bool)
  | readWriteStaticRegister (staticIdx : Fin 256) (idx : Nybble)
  | pauseProcess
  | resumeProcess
  | debugLog (bitWidth logId : Nybble) (valType : Option DebugLogValueType)
      (memType : MemoryAccessType) (addrRegIndex valRegIndex ofsRegIndex : Nybble)
      (relAddress : Value)

def CheatVmOpcode.beginConditionalBlock : CheatVmOpcode → Bool
  | .beginConditional .. | .beginKeypressConditional .. | .beginRegisterConditional .. => true
  | _ => false

/-! ## Decoding -/

/-- `(word >> shift) & 0xF`. -/
def nybble (word : Word) (shift : Nat) : Nybble :=
  ⟨(word >>> shift).toNat % 16, Nat.mod_lt _ (by decide)⟩

/-- The cast of a field, as `GetCheatProcessAddress` distinguishes it. -/
def MemoryAccessType.ofField (field : Nybble) : MemoryAccessType :=
  match field.val with
  | 1 => .heap
  | 2 => .alias
  | 3 => .aslr
  | _ => .mainNso

def ConditionalComparisonType.ofField (field : Nybble) : Option ConditionalComparisonType :=
  match field.val with
  | 1 => some .gt
  | 2 => some .ge
  | 3 => some .lt
  | 4 => some .le
  | 5 => some .eq
  | 6 => some .ne
  | _ => none

def RegisterArithmeticType.ofField (field : Nybble) : Option RegisterArithmeticType :=
  match field.val with
  | 0 => some .addition
  | 1 => some .subtraction
  | 2 => some .multiplication
  | 3 => some .leftShift
  | 4 => some .rightShift
  | 5 => some .logicalAnd
  | 6 => some .logicalOr
  | 7 => some .logicalNot
  | 8 => some .logicalXor
  | 9 => some .none
  | _ => Option.none

/-- The `default` of the decoder is `None`. -/
def StoreRegisterOffsetType.ofField (field : Nybble) : StoreRegisterOffsetType :=
  match field.val with
  | 1 => .reg
  | 2 => .imm
  | 3 => .memReg
  | 4 => .memImm
  | 5 => .memImmReg
  | _ => .none

def CompareRegisterValueType.ofField (field : Nybble) : Option CompareRegisterValueType :=
  match field.val with
  | 0 => some .memoryRelAddr
  | 1 => some .memoryOfsReg
  | 2 => some .registerRelAddr
  | 3 => some .registerOfsReg
  | 4 => some .staticValue
  | 5 => some .otherRegister
  | _ => none

/-- The `default` of both handlers is `Restore`. -/
def SaveRestoreRegisterOpType.ofField (field : Nybble) : SaveRestoreRegisterOpType :=
  match field.val with
  | 1 => .save
  | 2 => .clearSaved
  | 3 => .clearRegs
  | _ => .restore

def DebugLogValueType.ofField (field : Nybble) : Option DebugLogValueType :=
  match field.val with
  | 0 => some .memoryRelAddr
  | 1 => some .memoryOfsReg
  | 2 => some .registerRelAddr
  | 3 => some .registerOfsReg
  | 4 => some .registerValue
  | _ => none

/-- The type of an instruction: four bits, or eight from 0xC on, or twelve from 0xF0 on. -/
def opcodeType (first : Word) : Option CheatVmOpcodeType :=
  match (nybble first 28).val with
  | 0 => some .storeStatic
  | 1 => some .beginConditionalBlock
  | 2 => some .endConditionalBlock
  | 3 => some .controlLoop
  | 4 => some .loadRegisterStatic
  | 5 => some .loadRegisterMemory
  | 6 => some .storeStaticToAddress
  | 7 => some .performArithmeticStatic
  | 8 => some .beginKeypressConditionalBlock
  | 9 => some .performArithmeticRegister
  | 10 => some .storeRegisterToAddress
  | 12 =>
    match (nybble first 24).val with
    | 0 => some .beginRegisterConditionalBlock
    | 1 => some .saveRestoreRegister
    | 2 => some .saveRestoreRegisterMask
    | 3 => some .readWriteStaticRegister
    | _ => none
  | 15 =>
    match (nybble first 24).val, (nybble first 20).val with
    | 15, 0 => some .pauseProcess
    | 15, 1 => some .resumeProcess
    | 15, 15 => some .debugLog
    | _, _ => none
  | _ => none

/-- Decoding moves the instruction pointer, or fails. -/
abbrev Decoder := StateT Nat Option

section Decode

variable (program : List Word)

def getNextDword : Decoder Word := fun ip => (program[ip]?).map fun word => (word, ip + 1)

/-- `GetNextVmInt`: what `GetVmInt` gives for the same bit width. -/
def getNextVmInt (bitWidth : Nybble) : Decoder Value := do
  let first ← getNextDword program
  match bitWidth.val with
  | 1 => pure ((first &&& 0xFF#32).zeroExtend 64)
  | 2 => pure ((first &&& 0xFFFF#32).zeroExtend 64)
  | 4 => pure (first.zeroExtend 64)
  | 8 => do
    let second ← getNextDword program
    pure (first.zeroExtend 64 <<< 32 ||| second.zeroExtend 64)
  | _ => pure 0

/-- Two words, the upper one first. -/
def getNextTwoDwords : Decoder Value := do
  let first ← getNextDword program
  let second ← getNextDword program
  pure (first.zeroExtend 64 <<< 32 ||| second.zeroExtend 64)

/-- `(u64(first & mask) << 32) | GetNextDword()`. -/
def getNextAddress (first mask : Word) : Decoder Value := do
  let second ← getNextDword program
  pure ((first &&& mask).zeroExtend 64 <<< 32 ||| second.zeroExtend 64)

def decodeStoreRegisterToAddress (first : Word) : Decoder CheatVmOpcode := do
  let ofsType := StoreRegisterOffsetType.ofField (nybble first 8)
  let memType := MemoryAccessType.ofField (nybble first 4)
  let opcode := CheatVmOpcode.storeRegisterToAddress (nybble first 24) (nybble first 20)
    (nybble first 16) (nybble first 12 != 0) ofsType
  match ofsType with
  | .none | .reg => pure (opcode .mainNso (nybble first 4) 0)
  | .imm => do
    let relAddress ← getNextAddress program first 0xF
    pure (opcode .mainNso (nybble first 4) relAddress)
  | .memReg => pure (opcode memType (nybble first 4) 0)
  | .memImm | .memImmReg => do
    let relAddress ← getNextAddress program first 0xF
    pure (opcode memType (nybble first 4) relAddress)

def decodeBeginRegisterConditional (first : Word) : Decoder CheatVmOpcode := do
  let bitWidth := nybble first 20
  let compType := CompareRegisterValueType.ofField (nybble first 8)
  let memType := MemoryAccessType.ofField (nybble first 4)
  let opcode := CheatVmOpcode.beginRegisterConditional bitWidth
    (ConditionalComparisonType.ofField (nybble first 16)) (nybble first 12) compType
  match compType with
  | some .staticValue => do
    let value ← getNextVmInt program bitWidth
    pure (opcode .mainNso 0 0 0 0 value)
  | some .otherRegister => pure (opcode .mainNso 0 (nybble first 4) 0 0 0)
  | some .memoryRelAddr => do
    let relAddress ← getNextAddress program first 0xF
    pure (opcode memType 0 0 0 relAddress 0)
  | some .memoryOfsReg => pure (opcode memType 0 0 (nybble first 0) 0 0)
  | some .registerRelAddr => do
    let relAddress ← getNextAddress program first 0xF
    pure (opcode .mainNso (nybble first 4) 0 0 relAddress 0)
  | some .registerOfsReg => pure (opcode .mainNso (nybble first 4) 0 (nybble first 0) 0 0)
  | none => pure (opcode .mainNso 0 0 0 0 0)

def decodeDebugLog (first : Word) : Decoder CheatVmOpcode := do
  let valType := DebugLogValueType.ofField (nybble first 8)
  let memType := MemoryAccessType.ofField (nybble first 4)
  let opcode := CheatVmOpcode.debugLog (nybble first 16) (nybble first 12) valType
  match valType with
  | some .registerValue => pure (opcode .mainNso 0 (nybble first 4) 0 0)
  | some .memoryRelAddr => do
    let relAddress ← getNextAddress program first 0xF
    pure (opcode memType 0 0 0 relAddress)
  | some .memoryOfsReg => pure (opcode memType 0 0 (nybble first 0) 0)
  | some .registerRelAddr => do
    let relAddress ← getNextAddress program first 0xF
    pure (opcode .mainNso (nybble first 4) 0 0 relAddress)
  | some .registerOfsReg => pure (opcode .mainNso (nybble first 4) 0 (nybble first 0) 0)
  | none => pure (opcode .mainNso 0 0 0 0)

/-- The words behind the first one of an instruction. -/
def decodeOperands (first : Word) : CheatVmOpcodeType → Decoder CheatVmOpcode
  | .storeStatic => do
    let relAddress ← getNextAddress program first 0xFF
    let value ← getNextVmInt program (nybble first 24)
    pure (.storeStatic (nybble first 24) (.ofField (nybble first 20)) (nybble first 16) relAddress
      value)
  | .beginConditionalBlock => do
    let relAddress ← getNextAddress program first 0xFF
    let value ← getNextVmInt program (nybble first 24)
    pure (.beginConditional (nybble first 24) (.ofField (nybble first 20))
      (ConditionalComparisonType.ofField (nybble first 16)) relAddress value)
  | .endConditionalBlock => pure (.endConditional (nybble first 24 == 1))
  | .controlLoop =>
    if nybble first 24 = 0 then do
      let numIters ← getNextDword program
      pure (.controlLoop true (nybble first 20) numIters)
    else pure (.controlLoop false (nybble first 20) 0)
  | .loadRegisterStatic => do
    let value ← getNextTwoDwords program
    pure (.loadRegisterStatic (nybble first 16) value)
  | .loadRegisterMemory => do
    let relAddress ← getNextAddress program first 0xFF
    pure (.loadRegisterMemory (nybble first 24) (.ofField (nybble first 20)) (nybble first 16)
      (nybble first 12 != 0) relAddress)
  | .storeStaticToAddress => do
    let value ← getNextTwoDwords program
    pure (.storeStaticToAddress (nybble first 24) (nybble first 16) (nybble first 12 != 0)
      (nybble first 8 != 0) (nybble first 4) value)
  | .performArithmeticStatic => do
    let value ← getNextDword program
    pure (.performArithmeticStatic (nybble first 24) (nybble first 16)
      (RegisterArithmeticType.ofField (nybble first 12)) value)
  | .beginKeypressConditionalBlock => pure (.beginKeypressConditional (first &&& 0x0FFFFFFF#32))
  | .performArithmeticRegister =>
    let opcode := CheatVmOpcode.performArithmeticRegister (nybble first 24)
      (RegisterArithmeticType.ofField (nybble first 20)) (nybble first 16) (nybble first 12)
    if nybble first 8 = 0 then pure (opcode (nybble first 4) false 0)
    else do
      let value ← getNextVmInt program (nybble first 24)
      pure (opcode 0 true value)
  | .storeRegisterToAddress => decodeStoreRegisterToAddress program first
  | .beginRegisterConditionalBlock => decodeBeginRegisterConditional program first
  | .saveRestoreRegister =>
    pure (.saveRestoreRegister (nybble first 16) (nybble first 8) (.ofField (nybble first 4)))
  | .saveRestoreRegisterMask =>
    pure (.saveRestoreRegisterMask (.ofField (nybble first 20)) fun i => first.getLsbD i.val)
  | .readWriteStaticRegister =>
    pure (.readWriteStaticRegister ⟨(first >>> 4).toNat % 256, Nat.mod_lt _ (by decide)⟩
      (nybble first 0))
  | .pauseProcess => pure .pauseProcess
  | .resumeProcess => pure .resumeProcess
  | .debugLog => decodeDebugLog program first

/-- One instruction; an unrecognized one and the end of the program fail. -/
def decode : Decoder CheatVmOpcode := do
  let first ← getNextDword program
  match opcodeType first with
  | some type => decodeOperands program first type
  | none => failure

end Decode

/-! ## The store -/

structure CheatProcessMetadata where
  mainNsoBase : Value
  heapBase : Value
  aliasBase : Value
  aslrBase : Value

/-- A call to the process, with the bytes that are written or the value that is logged. -/
inductive Call where
  | memoryRead (address : Value) (size : Nat)
  | memoryWrite (address value : Value) (size : Nat)
  | pauseProcess
  | resumeProcess
  | debugLog (id : BitVec 8) (value : Value)
deriving DecidableEq

/-- `Callbacks`: what a read finds depends on the calls so far; the keys are read once. -/
structure Callbacks where
  memory : List Call → Value → Nat → Value
  hidKeysDown : Value

/-- What an instruction can change. -/
structure Store where
  registers : Nybble → Value
  savedValues : Nybble → Value
  staticRegisters : Fin 256 → Value
  calls : List Call

def Store.setRegister (s : Store) (i : Nybble) (value : Value) : Store :=
  { s with registers := Function.update s.registers i value }

def Store.call (s : Store) (c : Call) : Store := { s with calls := s.calls ++ [c] }

/-- The bits of a value of `bitWidth` bytes, for the bit widths that there are. -/
def widthMask (bitWidth : Nybble) : Option Value :=
  match bitWidth.val with
  | 1 => some 0xFF
  | 2 => some 0xFFFF
  | 4 => some 0xFFFFFFFF
  | 8 => some 0xFFFFFFFFFFFFFFFF
  | _ => none

/-- `GetVmInt`, and the casts of a register in a comparison: zero for another bit width. -/
def getVmInt (value : Value) (bitWidth : Nybble) : Value :=
  match widthMask bitWidth with
  | some mask => value &&& mask
  | none => 0

/-- `Apply bit width.`: another one changes nothing. -/
def applyBitWidth (value : Value) (bitWidth : Nybble) : Value :=
  match widthMask bitWidth with
  | some mask => value &&& mask
  | none => value

section Execute

variable (callbacks : Callbacks) (metadata : CheatProcessMetadata)

/-- `MemoryReadUnsafe(address, &old, bit_width)`: the lower bytes of `old` are overwritten. -/
def memoryRead (address old : Value) (bitWidth : Nybble) (s : Store) : Value × Store :=
  match widthMask bitWidth with
  | some mask =>
    ((old &&& ~~~mask) ||| (callbacks.memory s.calls address bitWidth.val &&& mask),
      s.call (.memoryRead address bitWidth.val))
  | none => (old, s)

/-- `MemoryWriteUnsafe(address, &value, bit_width)`. -/
def memoryWrite (address value : Value) (bitWidth : Nybble) (s : Store) : Store :=
  match widthMask bitWidth with
  | some mask => s.call (.memoryWrite address (value &&& mask) bitWidth.val)
  | none => s

def getCheatProcessAddress (memType : MemoryAccessType) (relAddress : Value) : Value :=
  match memType with
  | .mainNso => metadata.mainNsoBase + relAddress
  | .heap => metadata.heapBase + relAddress
  | .alias => metadata.aliasBase + relAddress
  | .aslr => metadata.aslrBase + relAddress

/-- The comparison of a condition. -/
def compare (condType : Option ConditionalComparisonType) (srcValue condValue : Value) : Bool :=
  match condType with
  | some .gt => condValue.ult srcValue
  | some .ge => condValue.ule srcValue
  | some .lt => srcValue.ult condValue
  | some .le => srcValue.ule condValue
  | some .eq => srcValue == condValue
  | some .ne => srcValue != condValue
  | none => false

/-- The operations of `PerformArithmeticStatic`; the others leave the register. -/
def arithmeticStatic (mathType : Option RegisterArithmeticType) (register value : Value) : Value :=
  match mathType with
  | some .addition => register + value
  | some .subtraction => register - value
  | some .multiplication => register * value
  | some .leftShift => register <<< value
  | some .rightShift => register >>> value
  | _ => register

/-- The operations of `PerformArithmeticRegister`. -/
def arithmeticRegister (mathType : Option RegisterArithmeticType) (operand1 operand2 : Value) :
    Value :=
  match mathType with
  | some .addition => operand1 + operand2
  | some .subtraction => operand1 - operand2
  | some .multiplication => operand1 * operand2
  | some .leftShift => operand1 <<< operand2
  | some .rightShift => operand1 >>> operand2
  | some .logicalAnd => operand1 &&& operand2
  | some .logicalOr => operand1 ||| operand2
  | some .logicalNot => ~~~operand1
  | some .logicalXor => operand1 ^^^ operand2
  | some .none => operand1
  | none => 0

/-- The condition of a block that begins, and the read that it takes. -/
def condition (opcode : CheatVmOpcode) (s : Store) : Bool × Store :=
  match opcode with
  | .beginConditional bitWidth memType condType relAddress value =>
    let (srcValue, s) := memoryRead callbacks (getCheatProcessAddress metadata memType relAddress) 0
      bitWidth s
    (compare condType srcValue (getVmInt value bitWidth), s)
  | .beginKeypressConditional keyMask =>
    (keyMask.zeroExtend 64 &&& callbacks.hidKeysDown == keyMask.zeroExtend 64, s)
  | .beginRegisterConditional bitWidth condType valReg compType memType addrReg otherReg ofsReg
      relAddress value =>
    let srcValue := getVmInt (s.registers valReg) bitWidth
    match compType with
    | some .staticValue => (compare condType srcValue (getVmInt value bitWidth), s)
    | some .otherRegister =>
      (compare condType srcValue (getVmInt (s.registers otherReg) bitWidth), s)
    | some .memoryRelAddr =>
      let (condValue, s) := memoryRead callbacks (getCheatProcessAddress metadata memType relAddress)
        0 bitWidth s
      (compare condType srcValue condValue, s)
    | some .memoryOfsReg =>
      let (condValue, s) := memoryRead callbacks
        (getCheatProcessAddress metadata memType (s.registers ofsReg)) 0 bitWidth s
      (compare condType srcValue condValue, s)
    | some .registerRelAddr =>
      let (condValue, s) := memoryRead callbacks (s.registers addrReg + relAddress) 0 bitWidth s
      (compare condType srcValue condValue, s)
    | some .registerOfsReg =>
      let (condValue, s) := memoryRead callbacks (s.registers addrReg + s.registers ofsReg) 0
        bitWidth s
      (compare condType srcValue condValue, s)
    | none =>
      let (condValue, s) := memoryRead callbacks 0 0 bitWidth s
      (compare condType srcValue condValue, s)
  | _ => (true, s)

/-- `SaveRestoreRegister`, on one register. -/
def saveRestore (opType : SaveRestoreRegisterOpType) (dst src : Nybble) (s : Store) : Store :=
  match opType with
  | .clearRegs => s.setRegister dst 0
  | .clearSaved => { s with savedValues := Function.update s.savedValues dst 0 }
  | .save => { s with savedValues := Function.update s.savedValues dst (s.registers src) }
  | .restore => s.setRegister dst (s.savedValues src)

/-- The address of `StoreRegisterToAddress`. -/
def storeAddress (ofsType : StoreRegisterOffsetType) (memType : MemoryAccessType)
    (addrReg ofsReg : Nybble) (relAddress : Value) (s : Store) : Value :=
  match ofsType with
  | .none => s.registers addrReg
  | .reg => s.registers addrReg + s.registers ofsReg
  | .imm => s.registers addrReg + relAddress
  | .memReg => getCheatProcessAddress metadata memType (s.registers addrReg)
  | .memImm => getCheatProcessAddress metadata memType relAddress
  | .memImmReg => getCheatProcessAddress metadata memType (s.registers addrReg + relAddress)

/-- The value that `DebugLog` logs. -/
def debugLogValue (bitWidth : Nybble) (valType : Option DebugLogValueType)
    (memType : MemoryAccessType) (addrReg valReg ofsReg : Nybble) (relAddress : Value) (s : Store) :
    Value × Store :=
  match valType with
  | some .registerValue => (getVmInt (s.registers valReg) bitWidth, s)
  | some .memoryRelAddr =>
    memoryRead callbacks (getCheatProcessAddress metadata memType relAddress) 0 bitWidth s
  | some .memoryOfsReg =>
    memoryRead callbacks (getCheatProcessAddress metadata memType (s.registers ofsReg)) 0 bitWidth s
  | some .registerRelAddr => memoryRead callbacks (s.registers addrReg + relAddress) 0 bitWidth s
  | some .registerOfsReg =>
    memoryRead callbacks (s.registers addrReg + s.registers ofsReg) 0 bitWidth s
  | none => memoryRead callbacks 0 0 bitWidth s

/-- What an instruction does to the store that neither begins nor ends a block or a loop. -/
def perform (opcode : CheatVmOpcode) (s : Store) : Store :=
  match opcode with
  | .storeStatic bitWidth memType offsetRegister relAddress value =>
    memoryWrite (getCheatProcessAddress metadata memType (relAddress + s.registers offsetRegister))
      (getVmInt value bitWidth) bitWidth s
  | .loadRegisterStatic regIndex value => s.setRegister regIndex value
  | .loadRegisterMemory bitWidth memType regIndex loadFromReg relAddress =>
    let srcAddress :=
      if loadFromReg then s.registers regIndex + relAddress
      else getCheatProcessAddress metadata memType relAddress
    let (value, s) := memoryRead callbacks srcAddress (s.registers regIndex) bitWidth s
    s.setRegister regIndex value
  | .storeStaticToAddress bitWidth regIndex incrementReg addOffsetReg offsetRegIndex value =>
    let dstAddress :=
      if addOffsetReg then s.registers regIndex + s.registers offsetRegIndex
      else s.registers regIndex
    let s := memoryWrite dstAddress value bitWidth s
    if incrementReg then
      s.setRegister regIndex (s.registers regIndex + BitVec.ofNat 64 bitWidth.val)
    else s
  | .performArithmeticStatic bitWidth regIndex mathType value =>
    s.setRegister regIndex
      (applyBitWidth (arithmeticStatic mathType (s.registers regIndex) (value.zeroExtend 64))
        bitWidth)
  | .performArithmeticRegister bitWidth mathType dst src1 src2 hasImmediate value =>
    let operand2 := if hasImmediate then getVmInt value bitWidth else s.registers src2
    s.setRegister dst
      (applyBitWidth (arithmeticRegister mathType (s.registers src1) operand2) bitWidth)
  | .storeRegisterToAddress bitWidth strReg addrReg incrementReg ofsType memType ofsReg relAddress =>
    let dstAddress := storeAddress metadata ofsType memType addrReg ofsReg relAddress s
    let s := memoryWrite dstAddress (s.registers strReg) bitWidth s
    if incrementReg then
      s.setRegister addrReg (s.registers addrReg + BitVec.ofNat 64 bitWidth.val)
    else s
  | .saveRestoreRegister dst src opType => saveRestore opType dst src s
  | .saveRestoreRegisterMask opType shouldOperate =>
    (List.finRange 16).foldl (fun s i => if shouldOperate i then saveRestore opType i i s else s) s
  | .readWriteStaticRegister staticIdx idx =>
    if staticIdx.val < 0x80 then s.setRegister idx (s.staticRegisters staticIdx)
    else
      { s with staticRegisters := Function.update s.staticRegisters staticIdx (s.registers idx) }
  | .pauseProcess => s.call .pauseProcess
  | .resumeProcess => s.call .resumeProcess
  | .debugLog bitWidth logId valType memType addrReg valReg ofsReg relAddress =>
    let (value, s) := debugLogValue callbacks metadata bitWidth valType memType addrReg valReg ofsReg
      relAddress s
    s.call (.debugLog (BitVec.ofNat 8 logId.val) value)
  | .beginConditional .. | .beginKeypressConditional .. | .beginRegisterConditional ..
  | .endConditional .. | .controlLoop .. => s

/-- The end of a loop: the counter goes down. -/
def countDown (reg : Nybble) (s : Store) : Store := s.setRegister reg (s.registers reg - 1)

/-! ## The interpreter -/

structure Vm where
  store : Store
  instructionPtr : Nat
  conditionDepth : Nat
  decodeSuccess : Bool
  loopTops : Nybble → Nat

variable (program : List Word)

/-- `DecodeNextOpcode`; after a failure it fails for good. -/
def decodeNextOpcode (vm : Vm) : Option (CheatVmOpcode × Vm) :=
  if vm.decodeSuccess then
    ((decode program).run vm.instructionPtr).map fun r => (r.1, { vm with instructionPtr := r.2 })
  else none

/-- The `while` loop of `SkipConditionalBlock`; every round takes a word or more. -/
def skipLoop (isIf : Bool) (desiredDepth : Nat) : Nat → Vm → Vm
  | 0, vm => vm
  | fuel + 1, vm =>
    if desiredDepth < vm.conditionDepth then
      match decodeNextOpcode program vm with
      | none => { vm with decodeSuccess := false }
      | some (opcode, vm) =>
        if opcode.beginConditionalBlock then
          skipLoop isIf desiredDepth fuel { vm with conditionDepth := vm.conditionDepth + 1 }
        else
          match opcode with
          | .endConditional false =>
            skipLoop isIf desiredDepth fuel { vm with conditionDepth := vm.conditionDepth - 1 }
          | .endConditional true =>
            if isIf ∧ vm.conditionDepth - 1 = desiredDepth then vm
            else skipLoop isIf desiredDepth fuel vm
          | _ => skipLoop isIf desiredDepth fuel vm
    else vm

/-- `SkipConditionalBlock`; at depth zero it is unreachable. -/
def skipConditionalBlock (isIf : Bool) (vm : Vm) : Vm :=
  if vm.conditionDepth > 0 then
    skipLoop program isIf (vm.conditionDepth - 1) program.length vm
  else vm

/-- The body of the loop of `Execute`, behind the decoder. -/
def dispatch (opcode : CheatVmOpcode) (vm : Vm) : Vm :=
  if opcode.beginConditionalBlock then
    let (condMet, store) := condition callbacks metadata opcode vm.store
    let vm := { vm with store := store, conditionDepth := vm.conditionDepth + 1 }
    if condMet then vm else skipConditionalBlock program true vm
  else
    match opcode with
    | .endConditional true => skipConditionalBlock program false vm
    | .endConditional false =>
      if vm.conditionDepth > 0 then { vm with conditionDepth := vm.conditionDepth - 1 } else vm
    | .controlLoop true reg numIters =>
      { vm with
        store := vm.store.setRegister reg (numIters.zeroExtend 64)
        loopTops := Function.update vm.loopTops reg vm.instructionPtr }
    | .controlLoop false reg _ =>
      let store := countDown reg vm.store
      if store.registers reg ≠ 0 then
        { vm with store := store, instructionPtr := vm.loopTops reg }
      else { vm with store := store }
    | opcode => { vm with store := perform callbacks metadata opcode vm.store }

/-- One round of the loop of `Execute`; `none` is its end. -/
def step (vm : Vm) : Option Vm :=
  (decodeNextOpcode program vm).map fun r => dispatch callbacks metadata program r.1 r.2

end Execute

/-- `ResetState`; the static registers are kept. -/
def resetState (staticRegisters : Fin 256 → Value) : Vm where
  store :=
    { registers := fun _ => 0
      savedValues := fun _ => 0
      staticRegisters := staticRegisters
      calls := [] }
  instructionPtr := 0
  conditionDepth := 0
  decodeSuccess := true
  loopTops := fun _ => 0

end Suyu.Core.DmntCheatVm
