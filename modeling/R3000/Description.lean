import R3000.Bus
import R3000.Text.Fields

/-! # The parts of a machine in words -/
namespace R3000

def MainRam.describe (_ : MainRam) : String := "MainRam(" ++ Numeral.hex ramSize 1 ++ " bytes)"

def Rom.describe (_ : Rom) : String := "Bios(" ++ Numeral.hex romSize 1 ++ " bytes)"

def Interrupt.Controller.describe (c : Interrupt.Controller) : String :=
  Fields.all "Controller"
    [("pending", Fields.number c.pending), ("enabled", Fields.number c.enabled),
      ("line", toString c.line)]

namespace Serial

def Status.describe (s : Status) : String :=
  Fields.flags
    [("TX_RDY", txReady), ("RX_RDY", rxReady), ("TX_EMPTY", txEmpty), ("PARITY_ERR", parityError),
      ("OVERRUN", overrun), ("FRAMING_ERR", framingError), ("DSR", dsr), ("CTS", cts), ("IRQ", irq)]
    s.bits

def Lines.describe (l : Lines) : String :=
  Fields.flags [("DATA", data), ("DTR", dtr), ("RTS", rts), ("CLOCK", clock)] l.bits

def Inputs.describe (i : Inputs) : String :=
  Fields.flags [("DATA", data), ("DSR", dsr), ("CTS", cts)] i.bits

def Mode.describe (m : Mode) : String :=
  Fields.word "Mode" m.word.toUInt32
    [("prescaler", Fields.number m.prescaler), ("char_len", Fields.number m.charLen),
      ("parity_enable", toString m.parityEnable), ("parity_odd", toString m.parityOdd),
      ("stop_bits", Fields.number m.stopBits), ("clock_polarity", toString m.clockPolarity)]

def Control.describe (c : Control) : String :=
  Fields.word "Control" c.word.toUInt32
    [("tx_enable", toString c.txEnable), ("dtr", toString c.dtr),
      ("rx_enable", toString c.rxEnable), ("tx_output_level", toString c.txOutputLevel),
      ("iack", toString c.iack), ("rts", toString c.rts), ("reset", toString c.reset),
      ("rx_int_mode", Fields.number c.rxIntMode), ("tx_ienable", toString c.txInterrupt),
      ("rx_ienable", toString c.rxInterrupt), ("dsr_ienable", toString c.dsrInterrupt),
      ("port_select", toString c.portSelect)]

def Timer.describe (t : Timer) : String :=
  Fields.all "Timer"
    [("period", Fields.number t.period), ("remaining", Fields.optional t.remaining)]

def Port.describe (p : Port) : String :=
  Fields.all "Port"
    [("status", p.status.describe), ("mode", p.mode.describe), ("control", p.control.describe),
      ("misc", Fields.number p.misc.toUInt32), ("baud", Fields.number p.baud.toUInt32),
      ("tx_data", Fields.number p.txData.toUInt32), ("tx_shift", Fields.number p.txShift.toUInt32),
      ("tx_bits", Fields.number p.txBits.toUInt32), ("rx_data", Fields.number p.rxData.toUInt32),
      ("rx_shift", Fields.number p.rxShift.toUInt32), ("rx_bits", Fields.number p.rxBits.toUInt32),
      ("inputs", p.inputs.describe), ("outputs", p.outputs.describe),
      ("timer", p.timer.describe)]

/-- Of listeners only their presence can be told. -/
def Controller.describe {δ : Type} (c : Controller δ) : String :=
  Fields.all "Controller"
    [("ports", Fields.list (c.ports.toList.map Port.describe)),
      ("handlers", Fields.list (c.listeners.toList.map fun l => toString l.isSome))]

end Serial

namespace Dma

def ChannelControl.describe (c : ChannelControl) : String :=
  Fields.word "ChannelControl" c.word
    [("from_ram", toString c.fromRam), ("backward", toString c.backward),
      ("chopping", toString c.chopping), ("sync", Fields.number c.sync), ("busy", toString c.busy),
      ("trigger", toString c.trigger)]

def Channel.describe (c : Channel) : String :=
  Fields.all "Channel"
    [("madr", Fields.number c.madr), ("bcr", Fields.number c.bcr), ("chcr", c.chcr.describe),
      ("countdown", Fields.optional c.countdown)]

def Controller.describe {δ : Type} (c : Controller δ) : String :=
  Fields.some "Dma"
    [("channels", Fields.list (c.channels.toList.map Channel.describe)),
      ("dpcr", Fields.number c.dpcr), ("dicr", Fields.number c.dicr.word),
      ("word_cycles", Fields.number c.wordCycles)]

end Dma
end R3000
