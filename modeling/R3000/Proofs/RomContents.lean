import R3000.Proofs.BusCourse
import R3000.Proofs.CacheIsolation
import R3000.Proofs.DmaReach
import R3000.Proofs.Runs

/-! # What is in ROM stays there

The bus passes over what is written to ROM, and nothing that it sets off elsewhere gets there: no register
and no peer of a transfer is handed the ROM. So what a host has loaded is there for as long as the machine
runs. -/
namespace R3000

namespace Bus
variable {δ : Type} {b : Bus δ}

def sparingRom : Motion (Bus δ) where
  holds b _ t := t.rom = b.rom
  still _ _ := rfl
  trans h k := k.trans h

theorem writeGroup_sparesRom (offset value : UInt32) (w : Width) (g : Group) :
    Moves sparingRom (writeGroup offset value w g) b := by
  cases g with
  | memoryControl index | ramSize | interrupt index | serial port reg => exact rfl
  | dma reg =>
    refine .bind (.get_bind (.lift rfl)) fun word t ht => ?_
    obtain ⟨_, _, _, _, h⟩ := dmaWrite_frame (Lane.base reg) (Lane.insert word value reg w) t
    show Bus.rom _ = _
    rw [h]

/-- No write reaches the ROM, wherever it goes. -/
theorem write_sparesRom (addr value : UInt32) (w : Width) : Moves sparingRom (write addr value w) b :=
  write_moves (fun _ _ _ => rfl) (fun _ _ _ _ => writeGroup_sparesRom _ _ _ _) fun _ => rfl

theorem carried_rom : Carried fun b t : Bus δ => t.rom = b.rom where
  refl _ := rfl
  trans h k := k.trans h
  read addr w _ _ := (read_kept addr w).1.rom
  write addr value w _ _ := write_sparesRom addr value w
  update cycles _ := (update_stands cycles).1.rom

end Bus

namespace Machine
variable {γ δ : Type}

theorem rom_after (m : Machine γ δ) (n : Nat) : (m.after n).bus.rom = m.bus.rom := by
  induction n with
  | zero => rfl
  | succ n ih => exact (bus_next Bus.carried_rom (m.after n)).trans ih

theorem rom_run (m : Machine γ δ) (budget : UInt64) : (run budget m).value.2.bus.rom = m.bus.rom := by
  obtain ⟨n, hn⟩ := exists_after_run m budget
  rw [hn, rom_after]

end Machine
end R3000
