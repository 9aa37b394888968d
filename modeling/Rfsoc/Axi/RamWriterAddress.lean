import Rfsoc.Axi.RamWriterRing

/-!
# The address channel of the RAM writer under any slave

`m_axi_awaddr` is computed from the register that accepted data beats advance.
A slave may take data before the address, and then the offered address moves
while it is on offer.  The channel is correct on exactly the runs in which no
beat overtakes its address.
-/

namespace Rfsoc.RamWriter

open Rfsoc.Clocked

section Contract

variable (addrWidth axiIdWidth : ℕ) (cfgData : Address) (input : ℕ → Input)

/-- The address-channel contract up to a horizon: a refused address and its ID
stay as they are, every burst begun on the data channel has had one address
handshake or still has its address on offer, and the address taken for burst
`j` is the place of that burst's first beat, number `16 * j`. -/
structure AddressChannel (horizon : ℕ) : Prop where
  held : PayloadHeld
    (fun cycle =>
      mAxiAwvalid ((core addrWidth axiIdWidth).stateAt input cycle))
    (fun cycle => (input cycle).mAxiAwready)
    (fun cycle =>
      (mAxiAwaddr cfgData ((core addrWidth axiIdWidth).stateAt input cycle),
        mAxiAwid ((core addrWidth axiIdWidth).stateAt input cycle)))
    horizon
  once : ∀ cycle ≤ horizon,
    (awBeats addrWidth axiIdWidth cfgData input cycle).length +
        (mAxiAwvalid ((core addrWidth axiIdWidth).stateAt input cycle)).toNat =
      (wBeats addrWidth axiIdWidth input cycle).length / 16 +
        (mAxiWvalid ((core addrWidth axiIdWidth).stateAt input cycle)).toNat
  start : ∀ burst (h : burst <
      (awBeats addrWidth axiIdWidth cfgData input horizon).length),
    ((awBeats addrWidth axiIdWidth cfgData input horizon)[burst]).addr =
      cfgData + BitVec.ofNat 32 (8 * (16 * burst % 2 ^ addrWidth))

end Contract

variable {addrWidth axiIdWidth : ℕ} {cfgData : Address} {input : ℕ → Input}

instance (s : State addrWidth axiIdWidth) (i : Input) :
    Decidable (AddressFirst s i) :=
  inferInstanceAs (Decidable (_ → _ → _ → _))

/-- A beat accepted while the address waits moves the address. -/
theorem mAxiAwaddr_step_ne (hwidth : 4 ≤ addrWidth)
    (s : State addrWidth axiIdWidth) (i : Input) (hrun : i.aresetn = true)
    (hbeat : intRdenWire s i = true) :
    mAxiAwaddr cfgData (step s i) ≠ mAxiAwaddr cfgData s := by
  have hnext : (step s i).intAddrReg.toNat =
      (s.intAddrReg.toNat + 1) % 2 ^ addrWidth := by
    simp only [step, hrun, if_true, intAddrNext, hbeat]
    exact Bits.toNat_add_one (Nat.mod_eq_of_lt s.intAddrReg.isLt).symm
  have hparity : (s.intAddrReg.toNat + 1) % 2 ^ addrWidth % 2 =
      (s.intAddrReg.toNat + 1) % 2 :=
    Nat.mod_mod_of_dvd _ (dvd_pow_self 2 (by omega))
  intro heq
  rw [mAxiAwaddr_eq, mAxiAwaddr_eq, BitVec.add_right_inj, hnext] at heq
  have hnat := congrArg BitVec.toNat heq
  rw [BitVec.toNat_ofNat, BitVec.toNat_ofNat] at hnat
  omega

/-- The address channel is correct exactly when no accepted data beat leaves
its burst's address on offer. -/
theorem ramWriter_addressChannel_iff (addrWidth axiIdWidth : ℕ)
    (hwidth : 4 ≤ addrWidth) (cfgData : Address) (input : ℕ → Input)
    (horizon : ℕ) (hrun : ∀ cycle < horizon, (input cycle).aresetn = true) :
    AddressChannel addrWidth axiIdWidth cfgData input horizon ↔
      ∀ cycle < horizon,
        AddressFirst ((core addrWidth axiIdWidth).stateAt input cycle)
          (input cycle) := by
  constructor
  · intro hchannel cycle hcycle hawvalid hwvalid hwready
    cases hawready : (input cycle).mAxiAwready with
    | true => rfl
    | false =>
        have hheld := hchannel.held cycle hcycle hawvalid hawready
        have hbeat : intRdenWire ((core addrWidth axiIdWidth).stateAt input cycle)
            (input cycle) = true := by
          simp [intRdenWire, hwvalid, hwready]
        exact absurd (congrArg Prod.fst hheld)
          (mAxiAwaddr_step_ne hwidth _ _ (hrun cycle hcycle) hbeat)
  · intro hfirst
    have hinv := addressInv_stateAt cfgData hwidth horizon hrun hfirst
    have hstarts := awBeats_eq cfgData hwidth horizon hrun hfirst horizon le_rfl
    refine ⟨?_, fun cycle hcycle => (hinv cycle hcycle).issued, ?_⟩
    · intro cycle hcycle hawvalid hawready
      -- an address still on offer has not seen a beat, so nothing moved
      obtain ⟨hwvalid, hstart⟩ := (hinv cycle hcycle.le).pending hawvalid
      have hwready : (input cycle).mAxiWready = false := by
        by_contra hwready
        have := hfirst cycle hcycle hawvalid hwvalid (by simpa using hwready)
        simp [this] at hawready
      simp [Machine.stateAt_succ, core, step, mAxiAwaddr, mAxiAwid,
        hrun cycle hcycle, intAddrNext, intWidNext, intRdenWire, hwready]
    · intro burst hburst
      simp [List.getElem_of_eq hstarts hburst, burstStart]

/-- On `steadyRun` every beat waits for its address. -/
theorem ramWriter_addressChannel_steadyRun :
    AddressChannel 4 2 0x1E000000#32 steadyRun 40 :=
  (ramWriter_addressChannel_iff 4 2 (by decide) 0x1E000000#32 steadyRun 40
    (by decide)).mpr (by decide +kernel)

/-- The slave of `steadyRun` with the address taken only from cycle 30 on. -/
def lateAddressRun (cycle : ℕ) : Input :=
  { steadyRun cycle with mAxiAwready := 30 ≤ cycle }

/-- The offered address moves while the slave takes the first burst's data. -/
theorem ramWriter_addressChannel_lateAddressRun :
    ¬ AddressChannel 4 2 0x1E000000#32 lateAddressRun 40 := by
  intro hchannel
  have hheld := hchannel.held 19 (by decide) (by decide +kernel)
    (by decide +kernel)
  revert hheld
  decide +kernel

end Rfsoc.RamWriter
