/-! # Names of the kernel's services, as logs show them -/
namespace R3000.Kernel

/-- The service that `syscall` asks for by the number in register 4. -/
def syscallName (function : UInt32) : String :=
  match function.toNat with
  | 0 => "NoFunction"
  | 1 => "EnterCriticalSection"
  | 2 => "ExitCriticalSection"
  | 3 => "ChangeThreadSubFunction"
  | _ => "DeliverEvent"

/-- The file-server call that `break` asks for by its code. -/
def breakName? (code : UInt32) : Option String :=
  match code.toNat with
  | 0x101 => some "PCInit"
  | 0x102 => some "PCCreate"
  | 0x103 => some "PCOpen"
  | 0x104 => some "PCClose"
  | 0x105 => some "PCRead"
  | 0x106 => some "PCWrite"
  | 0x107 => some "PClSeek"
  | _ => none

end R3000.Kernel
