/-!
# Operations

What an instruction does, apart from its operands: the operations of the 8086,
those the 80186 and the 80286 added, and those of the coprocessor. Operations that
an encoding selects by a number from one family are kept as that family, so that
the opcode map can hand the number over.

What matters for control flow is not the operation but the transfer it performs.
Most operations perform none. A transfer ends a basic block, and some transfers
still let execution go on behind the instruction.

## Main definitions

* `Arithmetic`, `Shift`, `Condition`, `Coprocessor`: Families of operations.
* `Operation`: An operation of the processor or its coprocessor.
* `Operation.mnemonic`: The name of an operation in a listing.
* `Transfer`: A way of leaving straight-line execution.
* `Operation.transfer?`: The transfer that an operation performs.
-/

namespace Disasm86

/-- Two-operand arithmetic and logic, in the order of their encodings. -/
inductive Arithmetic where
  | add | or | adc | sbb | and | sub | xor | cmp
deriving DecidableEq, Repr

/-- The mnemonic of an arithmetic operation. -/
def Arithmetic.mnemonic : Arithmetic → String
  | .add => "add"
  | .or => "or"
  | .adc => "adc"
  | .sbb => "sbb"
  | .and => "and"
  | .sub => "sub"
  | .xor => "xor"
  | .cmp => "cmp"

/-- Rotations and shifts. -/
inductive Shift where
  | rol | ror | rcl | rcr | shl | shr | sar
deriving DecidableEq, Repr

/-- The mnemonic of a rotation or shift. -/
def Shift.mnemonic : Shift → String
  | .rol => "rol"
  | .ror => "ror"
  | .rcl => "rcl"
  | .rcr => "rcr"
  | .shl => "shl"
  | .shr => "shr"
  | .sar => "sar"

/-- The conditions of a conditional jump, in the order of their encodings. -/
inductive Condition where
  | o | no | b | ae | e | ne | be | a | s | ns | p | np | l | ge | le | g
deriving DecidableEq, Repr

/-- The mnemonic of the jump on a condition. -/
def Condition.mnemonic : Condition → String
  | .o => "jo"
  | .no => "jno"
  | .b => "jb"
  | .ae => "jae"
  | .e => "je"
  | .ne => "jne"
  | .be => "jbe"
  | .a => "ja"
  | .s => "js"
  | .ns => "jns"
  | .p => "jp"
  | .np => "jnp"
  | .l => "jl"
  | .ge => "jge"
  | .le => "jle"
  | .g => "jg"

/-- Operations of the coprocessor. -/
inductive Coprocessor where
  | f2xm1 | fabs | fadd | faddp | fbld | fbstp | fchs | fcom | fcomp | fcompp
  | fdecstp | fdiv | fdivp | fdivr | fdivrp | ffree
  | fiadd | ficom | ficomp | fidiv | fidivr | fild | fimul | fincstp | fist | fistp
  | fisub | fisubr
  | fld | fld1 | fldcw | fldenv | fldl2e | fldl2t | fldlg2 | fldln2 | fldpi | fldz
  | fmul | fmulp
  | fnclex | fndisi | fneni | fninit | fnop | fnsave | fnstcw | fnstenv | fnstsw
  | fpatan | fprem | fptan | frndint | frstor
  | fscale | fsetpm | fsqrt | fst | fstp | fsub | fsubp | fsubr | fsubrp
  | ftst | fxam | fxch | fxtract | fyl2x | fyl2xp1
deriving DecidableEq, Repr

/-- The mnemonic of a coprocessor operation. -/
def Coprocessor.mnemonic : Coprocessor → String
  | .f2xm1 => "f2xm1"
  | .fabs => "fabs"
  | .fadd => "fadd"
  | .faddp => "faddp"
  | .fbld => "fbld"
  | .fbstp => "fbstp"
  | .fchs => "fchs"
  | .fcom => "fcom"
  | .fcomp => "fcomp"
  | .fcompp => "fcompp"
  | .fdecstp => "fdecstp"
  | .fdiv => "fdiv"
  | .fdivp => "fdivp"
  | .fdivr => "fdivr"
  | .fdivrp => "fdivrp"
  | .ffree => "ffree"
  | .fiadd => "fiadd"
  | .ficom => "ficom"
  | .ficomp => "ficomp"
  | .fidiv => "fidiv"
  | .fidivr => "fidivr"
  | .fild => "fild"
  | .fimul => "fimul"
  | .fincstp => "fincstp"
  | .fist => "fist"
  | .fistp => "fistp"
  | .fisub => "fisub"
  | .fisubr => "fisubr"
  | .fld => "fld"
  | .fld1 => "fld1"
  | .fldcw => "fldcw"
  | .fldenv => "fldenv"
  | .fldl2e => "fldl2e"
  | .fldl2t => "fldl2t"
  | .fldlg2 => "fldlg2"
  | .fldln2 => "fldln2"
  | .fldpi => "fldpi"
  | .fldz => "fldz"
  | .fmul => "fmul"
  | .fmulp => "fmulp"
  | .fnclex => "fnclex"
  | .fndisi => "fndisi"
  | .fneni => "fneni"
  | .fninit => "fninit"
  | .fnop => "fnop"
  | .fnsave => "fnsave"
  | .fnstcw => "fnstcw"
  | .fnstenv => "fnstenv"
  | .fnstsw => "fnstsw"
  | .fpatan => "fpatan"
  | .fprem => "fprem"
  | .fptan => "fptan"
  | .frndint => "frndint"
  | .frstor => "frstor"
  | .fscale => "fscale"
  | .fsetpm => "fsetpm"
  | .fsqrt => "fsqrt"
  | .fst => "fst"
  | .fstp => "fstp"
  | .fsub => "fsub"
  | .fsubp => "fsubp"
  | .fsubr => "fsubr"
  | .fsubrp => "fsubrp"
  | .ftst => "ftst"
  | .fxam => "fxam"
  | .fxch => "fxch"
  | .fxtract => "fxtract"
  | .fyl2x => "fyl2x"
  | .fyl2xp1 => "fyl2xp1"

/-- What an instruction does. -/
inductive Operation where
  | arithmetic (operation : Arithmetic)
  | shift (operation : Shift)
  | jumpIf (condition : Condition)
  | coprocessor (operation : Coprocessor)
  -- transfers of control
  | call | callFar | halt | interrupt | interruptOnOverflow | interruptReturn
  | jump | jumpFar | jumpIfCountZero | loop | loopEqual | loopNotEqual | ret | retFar
  -- 8086
  | aaa | aad | aam | aas | cbw | clc | cld | cli | cmc | cmpsb | cmpsw | cwd
  | daa | das | dec | div | idiv | imul | inc | input
  | lahf | lds | lea | les | lodsb | lodsw | mov | movsb | movsw | mul
  | neg | nop | not | output | pop | popf | push | pushf
  | sahf | scasb | scasw | stc | std | sti | stosb | stosw
  | test | wait | xchg | xlat
  -- 80186
  | bound | enter | insb | insw | leave | outsb | outsw | popa | pusha
  -- 80286
  | arpl | clts | lar | lgdt | lidt | lldt | lmsw | lsl | ltr
  | sgdt | sidt | sldt | smsw | str | verr | verw
deriving DecidableEq, Repr

/-- The mnemonic of an operation. -/
def Operation.mnemonic : Operation → String
  | .arithmetic op => op.mnemonic
  | .shift op => op.mnemonic
  | .jumpIf c => c.mnemonic
  | .coprocessor op => op.mnemonic
  | .call => "call"
  | .callFar => "callf"
  | .halt => "hlt"
  | .interrupt => "int"
  | .interruptOnOverflow => "into"
  | .interruptReturn => "iret"
  | .jump => "jmp"
  | .jumpFar => "jmpf"
  | .jumpIfCountZero => "jcxz"
  | .loop => "loop"
  | .loopEqual => "loope"
  | .loopNotEqual => "loopne"
  | .ret => "ret"
  | .retFar => "retf"
  | .aaa => "aaa"
  | .aad => "aad"
  | .aam => "aam"
  | .aas => "aas"
  | .cbw => "cbw"
  | .clc => "clc"
  | .cld => "cld"
  | .cli => "cli"
  | .cmc => "cmc"
  | .cmpsb => "cmpsb"
  | .cmpsw => "cmpsw"
  | .cwd => "cwd"
  | .daa => "daa"
  | .das => "das"
  | .dec => "dec"
  | .div => "div"
  | .idiv => "idiv"
  | .imul => "imul"
  | .inc => "inc"
  | .input => "in"
  | .lahf => "lahf"
  | .lds => "lds"
  | .lea => "lea"
  | .les => "les"
  | .lodsb => "lodsb"
  | .lodsw => "lodsw"
  | .mov => "mov"
  | .movsb => "movsb"
  | .movsw => "movsw"
  | .mul => "mul"
  | .neg => "neg"
  | .nop => "nop"
  | .not => "not"
  | .output => "out"
  | .pop => "pop"
  | .popf => "popf"
  | .push => "push"
  | .pushf => "pushf"
  | .sahf => "sahf"
  | .scasb => "scasb"
  | .scasw => "scasw"
  | .stc => "stc"
  | .std => "std"
  | .sti => "sti"
  | .stosb => "stosb"
  | .stosw => "stosw"
  | .test => "test"
  | .wait => "wait"
  | .xchg => "xchg"
  | .xlat => "xlat"
  | .bound => "bound"
  | .enter => "enter"
  | .insb => "insb"
  | .insw => "insw"
  | .leave => "leave"
  | .outsb => "outsb"
  | .outsw => "outsw"
  | .popa => "popa"
  | .pusha => "pusha"
  | .arpl => "arpl"
  | .clts => "clts"
  | .lar => "lar"
  | .lgdt => "lgdt"
  | .lidt => "lidt"
  | .lldt => "lldt"
  | .lmsw => "lmsw"
  | .lsl => "lsl"
  | .ltr => "ltr"
  | .sgdt => "sgdt"
  | .sidt => "sidt"
  | .sldt => "sldt"
  | .smsw => "smsw"
  | .str => "str"
  | .verr => "verr"
  | .verw => "verw"

/-- A way of leaving straight-line execution. -/
inductive Transfer where
  | conditionalJump
  | nearJump
  | farJump
  | nearCall
  | farCall
  | interrupt
  | interruptReturn
  | nearReturn
  | farReturn
  | halt
deriving DecidableEq, Repr, Inhabited

namespace Transfer

/-- The name of a transfer in a listing. -/
def name : Transfer → String
  | .conditionalJump => "ConditionalJump"
  | .nearJump => "NearJump"
  | .farJump => "FarJump"
  | .nearCall => "NearCall"
  | .farCall => "FarCall"
  | .interrupt => "Interrupt"
  | .interruptReturn => "InterruptReturn"
  | .nearReturn => "NearReturn"
  | .farReturn => "FarReturn"
  | .halt => "Halt"

/-- Whether execution can go on behind the instruction: a condition may fail, and
    a call or an interrupt comes back. -/
def fallsThrough : Transfer → Bool
  | .conditionalJump | .nearCall | .farCall | .interrupt => true
  | .nearJump | .farJump | .interruptReturn | .nearReturn | .farReturn | .halt => false

/-- Whether the instruction names where control goes. Returns take their target from
    the stack and interrupts from a table that is no part of the image. -/
def namesTarget : Transfer → Bool
  | .conditionalJump | .nearJump | .farJump | .nearCall | .farCall => true
  | .interrupt | .interruptReturn | .nearReturn | .farReturn | .halt => false

/-- Whether the transfer is a call. -/
def isCall : Transfer → Bool
  | .nearCall | .farCall => true
  | _ => false

end Transfer

/-- The transfer that an operation performs, if it performs one. -/
def Operation.transfer? : Operation → Option Transfer
  | .jumpIf _ | .jumpIfCountZero | .loop | .loopEqual | .loopNotEqual => some .conditionalJump
  | .jump => some .nearJump
  | .jumpFar => some .farJump
  | .call => some .nearCall
  | .callFar => some .farCall
  | .interrupt | .interruptOnOverflow => some .interrupt
  | .interruptReturn => some .interruptReturn
  | .ret => some .nearReturn
  | .retFar => some .farReturn
  | .halt => some .halt
  | _ => none

end Disasm86
