import I386Vm.Arith
import I386Vm.Bits
import I386Vm.Control
import I386Vm.Strings
import I386Vm.System

/-!
# The dispatcher and the execution loop

`inss` and `instructions` are parallel tables; `dispatcher` calls the handler beside the first
mnemonic that matches. The loop of `blind_elf_main` and `blind_raw_main` disassembles the
instruction at `eip`, dispatches it, and leaves only when nothing could be disassembled or an
`int` of opcode `0xCD` returned `0xdeadbeef`. Capstone is a parameter.
-/

namespace I386Vm

/-- The mnemonics the dispatcher compares with. `jecxz_i` is spelt as in the source. -/
def inss : List String :=
  ["aaa", "aad", "aam", "aas", "adc", "add", "and", "arpl", "bound", "bsf", "bsr", "bt", "btc",
   "btr", "bts", "call", "cbw", "cwde", "clc", "cld", "cli", "clts", "cmc", "cmp", "cmpsb",
   "cmpsw", "cmpsd", "cwd", "cdq", "daa", "das", "dec", "div", "hlt", "idiv", "imul", "in",
   "inc", "ins", "insb", "insw", "insd", "int", "into", "iret", "iretd", "ja", "jae", "jb",
   "jbe", "jc", "jcxz", "jecxz_i", "je", "jg", "jge", "jl", "jle", "jmp", "jna", "jnae", "jnb",
   "jnbe", "jnc", "jne", "jng", "jnge", "jnl", "jnle", "jno", "jnp", "jns", "jo", "jp", "jpe",
   "jpo", "js", "jz", "lahf", "lar", "lea", "leave", "lgdt", "lidt", "les", "lfs", "lgs",
   "lds", "lss", "lldt", "lmsw", "lock", "lods", "lodsb", "lodsw", "lodsd", "loop", "loope",
   "loopne", "loopnz", "loopz", "lsl", "ltr", "mov", "movs", "movsb", "movsw", "movsd",
   "movsx", "movzx", "mul", "neg", "nop", "not", "or", "out", "outs", "outsb", "outsw",
   "outsd", "pop", "popa", "popad", "popf", "popfd", "push", "pusha", "pushad", "pushf",
   "pushfd", "rcl", "rcr", "rol", "ror", "ret", "sahf", "sal", "sar", "shl", "shr", "sbb",
   "scas", "scasb", "scasw", "scasd", "seta", "setae", "setb", "setbe", "setc", "sete", "setg",
   "setge", "setl", "setle", "setna", "setnae", "setnb", "setnbe", "setnc", "setne", "setng",
   "setnge", "setnl", "setnle", "setno", "setnp", "setns", "seto", "setp", "setpe", "setpo",
   "sets", "setz", "sgdt", "sidt", "shld", "shrd", "sldt", "smsw", "stc", "std", "sti", "stos",
   "stosb", "stosw", "stosd", "sub", "test", "verr", "verw", "wait", "xchg", "xlat", "xlatb",
   "xor", "rep ins", "rep movsb", "rep movsw", "rep movsd", "rep outs", "rep stosb",
   "rep stosw", "rep stosd", ""]

/-- Calling the `NULL` at the end of `instructions`. -/
def nullHandler : Handler := fun _ => throw .null

section Dispatch

variable (host : Host)

def instructions : List Handler :=
  [aaaI, aadI, aamI, aasI, adcI, addI, andI, arplI, boundI, bsfI, bsrI, btI, btcI, btrI, btsI,
   callI, cbwI, cwdeI, clcI, cldI, cliI, cltsI, cmcI, cmpI, cmpsbI, cmpswI, cmpsdI, cwdI, cdqI,
   daaI, dasI, decI, divI, hltI, idivI, imulI, inI host, incI, insI host, insbI host,
   inswI host, insdI host, intI host, intoI host, iretI, iretdI, jaI, jaeI, jbI, jbeI, jcI,
   jcxzI, jecxzI, jeI, jgI, jgeI, jlI, jleI, jmpI, jnaI, jnaeI, jnbI, jnbeI, jncI, jneI, jngI,
   jngeI, jnlI, jnleI, jnoI, jnpI, jnsI, joI, jpI, jpeI, jpoI, jsI, jzI, lahfI, larI, leaI,
   leaveI, lgdtI, lidtI, lesI, lfsI, lgsI, ldsI, lssI, lldtI, lmswI, lockI, lodsI, lodsbI,
   lodswI, lodsdI, loopI, loopeI, loopneI, loopnzI, loopzI, lslI, ltrI, movI, movsI, movsI,
   movsI, movsI, movsxI, movzxI, mulI, negI, nopI, notI, orI, outI host, outsI host,
   outsbI host, outswI host, outsdI host, popI, popaI, popadI, popfI, popfdI, pushI, pushaI,
   pushadI, pushfI, pushfdI, rclI, rcrI, rolI, rorI, retI, sahfI, salI, sarI, shlI, shrI, sbbI,
   scasI, scasI, scasI, scasI, setaI, setaeI, setbI, setbeI, setcI, seteI, setgI, setgeI,
   setlI, setleI, setnaI, setnaeI, setnbI, setnbeI, setncI, setneI, setngI, setngeI, setnlI,
   setnleI, setnoI, setnpI, setnsI, setoI, setpI, setpeI, setpoI, setsI, setzI, sgdtI, sidtI,
   shldI, shrdI, sldtI, smswI, stcI, stdI, stiI, stosI, stosI, stosI, stosI, subI, testI,
   verrI, verwI, waitI, xchgI, xlatI, xlatI, xorI, repInsI, repMovsI, repMovsI, repMovsI,
   repOutsI, repStosI, repStosI, repStosI, nullHandler]

def handlerOf (mnemonic : String) : Option Handler :=
  ((inss.zip (instructions host)).find? fun e => e.1 = mnemonic).map (·.2)

def dispatcher (mnemonic : String) (insn : CsInsn) : Exec Ret :=
  match handlerOf host mnemonic with
  | some h => h insn
  | none => return some (-1)

/-- `cs_disasm(handle, &mem[eip], len, eip, 1, &ins)`: the first instruction of the `len` bytes of
memory from `eip` on, if there is one. -/
abbrev Disasm := (ℕ → BitVec 8) → BitVec 32 → BitVec 32 → Option CsInsn

/-- `ins[0].bytes[0] == 0xCD && res == 0xdeadbeef` -/
def exits (insn : CsInsn) (res : Ret) : Bool := insn.byte0 = 0xCD && res = some 0xdeadbeef

/-- One iteration of the loop, `none` where it leaves; `limit` is the `r` of `blind_elf_main` and
the `size` of `blind_raw_main`. -/
def iteration (disasm : Disasm) (limit : BitVec 32) (s : Machine) :
    Except Fault (Option Machine) := do
  match disasm (fun i => s.mem (s.eip.toNat + i)) s.eip (limit - s.eip) with
  | none => return none
  | some insn =>
    let r ← (dispatcher host insn.mnemonic insn).run s
    return if exits insn r.1 then none else some r.2

end Dispatch

end I386Vm
