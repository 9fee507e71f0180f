import R3000.Cpu
import R3000.Dma
import R3000.MemoryControl
import R3000.Savestate.Stored
import R3000.Serial

/-! # The stored form of the parts of a machine

Every part is stored as its fields in order; sets of flags keep the bits that have no name. -/
namespace R3000
open Stored

instance : Stored ICache.Line := .via (fun l => (l.tag, l.valid, l.words)) fun p => ⟨p.1, p.2.1, p.2.2⟩

instance : Stored ICache := .via ICache.lines ICache.mk

instance : Stored DataArray := .via (fun d => (d.words, d.tags)) fun p => ⟨p.1, p.2⟩

instance : Stored Biu := .via Biu.word Biu.mk

instance : Stored Caches := .via (fun c => (c.instr, c.data, c.biu)) fun p => ⟨p.1, p.2.1, p.2.2⟩

instance : Stored LoadDelay where
  encode
    | .none => encodeChoice 0
    | .pending reg value => encodeChoice 1 ++ encode (reg, value)
  decode := do
    match ← decodeChoice 2 with
    | 0 => return .none
    | _ => return .pending (← decode) (← decode)

instance : Stored BranchDelay where
  encode
    | .none => encodeChoice 0
    | .notTaken => encodeChoice 1
    | .pending target => encodeChoice 2 ++ encode target
  decode := do
    match ← decodeChoice 3 with
    | 0 => return .none
    | 1 => return .notTaken
    | _ => return .pending (← decode)

instance : Stored DelaySlots :=
  .via (fun s => (s.load, s.nextLoad, s.branch, s.inSlot, s.taken))
    fun p => ⟨p.1, p.2.1, p.2.2.1, p.2.2.2.1, p.2.2.2.2⟩

instance : Stored Dcic := .via Dcic.word Dcic.mk

instance : Stored Status := .via Status.word Status.mk

instance : Stored Cause := .via Cause.word Cause.mk

instance : Stored Cop0 :=
  .via
    (fun c =>
      (c.bpc, c.bda, c.tar, c.dcic, c.badVaddr, c.bdam, c.bpcm, c.status, c.cause, c.epc, c.prid))
    fun (bpc, bda, tar, dcic, badVaddr, bdam, bpcm, status, cause, epc, prid) =>
      { bpc, bda, tar, dcic, badVaddr, bdam, bpcm, status, cause, epc, prid }

instance : Stored RegisterFile :=
  .via (fun f => (f.pc, f.hi, f.lo, f.gprs, f.cop0))
    fun (pc, hi, lo, gprs, cop0) => { pc, hi, lo, gprs, cop0 }

instance : Stored MulDivOp where
  encode
    | .mult => encodeChoice 0
    | .multu => encodeChoice 1
    | .div => encodeChoice 2
    | .divu => encodeChoice 3
  decode := do
    match ← decodeChoice 4 with
    | 0 => return .mult
    | 1 => return .multu
    | 2 => return .div
    | _ => return .divu

instance : Stored MulDivPending :=
  .via (fun p => (p.op, p.lhs, p.rhs, p.issuedAt, p.latency))
    fun (op, lhs, rhs, issuedAt, latency) => { op, lhs, rhs, issuedAt, latency }

instance : Stored MulDivUnit := .via MulDivUnit.pending MulDivUnit.mk

instance : Stored Clock :=
  .via (fun c => (c.cycles, c.retired, c.gteReadyAt)) fun p => ⟨p.1, p.2.1, p.2.2⟩

instance : Stored Cpu :=
  .via (fun c => (c.caches, c.slots, c.regs, c.muldiv, c.clock))
    fun (caches, slots, regs, muldiv, clock) => { caches, slots, regs, muldiv, clock }

instance : Stored MemoryControl := .via (fun m => (m.banks, m.ramSize)) fun p => ⟨p.1, p.2⟩

instance : Stored Interrupt.Controller :=
  .via (fun c => (c.pending, c.enabled, c.line)) fun p => ⟨p.1, p.2.1, p.2.2⟩

namespace Serial

instance : Stored Status := .via Status.bits Status.mk

instance : Stored Lines := .via Lines.bits Lines.mk

instance : Stored Inputs := .via Inputs.bits Inputs.mk

instance : Stored Mode := .via Mode.word Mode.mk

instance : Stored Control := .via Control.word Control.mk

instance : Stored Timer := .via (fun t => (t.period, t.remaining)) fun p => ⟨p.1, p.2⟩

instance : Stored Port :=
  .via
    (fun p =>
      (p.status, p.mode, p.control, p.misc, p.baud, p.txData, p.txShift, p.txBits, p.rxData,
        p.rxShift, p.rxBits, p.inputs, p.outputs, p.timer))
    fun (status, mode, control, misc, baud, txData, txShift, txBits, rxData, rxShift, rxBits,
        inputs, outputs, timer) =>
      { status, mode, control, misc, baud, txData, txShift, txBits, rxData, rxShift, rxBits,
        inputs, outputs, timer }

end Serial

namespace Dma

instance : Stored ChannelControl := .via ChannelControl.word ChannelControl.mk

instance : Stored Channel :=
  .via (fun c => (c.madr, c.bcr, c.chcr, c.countdown))
    fun (madr, bcr, chcr, countdown) => { madr, bcr, chcr, countdown }

instance : Stored Dicr := .via Dicr.word Dicr.mk

end Dma
end R3000
