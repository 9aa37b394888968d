import Rfsoc.Axi.RamWriterRing

/-!
# Framing of the data channel under any slave

Three next-state equations of the core test `int_wlast_wire` without looking at
`int_wvalid_reg`.  `BeatInv` is why that is right: the beat counter stands
between bursts whenever `int_wvalid_reg` is low, so a last beat is always on
offer.  The framing of the data channel follows for every slave.
-/

namespace Rfsoc.RamWriter

open Rfsoc.Clocked

section Contract

variable (addrWidth axiIdWidth : ℕ) (input : ℕ → Input)

/-- The data channel in one cycle: a last beat is on offer, an idle channel
stands between bursts, and `m_axi_wid` counts the finished bursts. -/
structure FramedCycle (cycle : ℕ) : Prop where
  lastOffered :
    mAxiWlast ((core addrWidth axiIdWidth).stateAt input cycle) = true →
      mAxiWvalid ((core addrWidth axiIdWidth).stateAt input cycle) = true
  idle : mAxiWvalid ((core addrWidth axiIdWidth).stateAt input cycle) = false →
    ((core addrWidth axiIdWidth).stateAt input cycle).intAddrReg.extractLsb' 0 4
      = 0#4
  wid : mAxiWid ((core addrWidth axiIdWidth).stateAt input cycle) =
    BitVec.ofNat axiIdWidth
      ((wBeats addrWidth axiIdWidth input cycle).length / 16)

/-- The framing contract up to a horizon.  A raised `m_axi_wvalid` stays until
sixteen beats have been accepted since; beat number `n` (from one) is a last
beat exactly when sixteen divides `n`; the ID is constant within each sixteen
beats and moves up by one to the next sixteen. -/
structure WChannelFramed (horizon : ℕ) : Prop where
  always : ∀ cycle ≤ horizon, FramedCycle addrWidth axiIdWidth input cycle
  stays : ∀ raised late, raised < late → late ≤ horizon →
    mAxiWvalid ((core addrWidth axiIdWidth).stateAt input raised) = false →
    mAxiWvalid ((core addrWidth axiIdWidth).stateAt input (raised + 1)) = true →
    (wBeats addrWidth axiIdWidth input late).length <
      (wBeats addrWidth axiIdWidth input (raised + 1)).length + 16 →
    mAxiWvalid ((core addrWidth axiIdWidth).stateAt input late) = true
  last : ∀ beat (h : beat <
      (wBeats addrWidth axiIdWidth input horizon).length),
    ((wBeats addrWidth axiIdWidth input horizon)[beat]).last = true ↔
      (beat + 1) % 16 = 0
  sameBurst : ∀ first second
      (hfirst : first < (wBeats addrWidth axiIdWidth input horizon).length)
      (hsecond : second < (wBeats addrWidth axiIdWidth input horizon).length),
    first / 16 = second / 16 →
      ((wBeats addrWidth axiIdWidth input horizon)[first]).id =
        ((wBeats addrWidth axiIdWidth input horizon)[second]).id
  nextBurst : ∀ first second
      (hfirst : first < (wBeats addrWidth axiIdWidth input horizon).length)
      (hsecond : second < (wBeats addrWidth axiIdWidth input horizon).length),
    first / 16 + 1 = second / 16 →
      ((wBeats addrWidth axiIdWidth input horizon)[first]).id + 1 =
        ((wBeats addrWidth axiIdWidth input horizon)[second]).id

end Contract

variable {addrWidth axiIdWidth : ℕ} {input : ℕ → Input}

namespace BeatInv

variable {beats : ℕ} {s : State addrWidth axiIdWidth} {i : Input}

theorem wvalid_of_wlast (hwidth : 4 ≤ addrWidth) (hinv : BeatInv beats s)
    (hlast : intWlastWire s = true) : s.intWvalidReg = true := by
  cases hvalid : s.intWvalidReg with
  | true => rfl
  | false =>
      have hzero := hinv.idle hvalid
      have hend : beats % 16 = 15 := by
        simpa using (hinv.wlast hwidth).symm.trans hlast
      omega

theorem intAddrReg_low (hwidth : 4 ≤ addrWidth) (hinv : BeatInv beats s)
    (hvalid : s.intWvalidReg = false) : s.intAddrReg.extractLsb' 0 4 = 0#4 := by
  have hdvd : 16 ∣ 2 ^ addrWidth := pow_dvd_pow 2 hwidth
  apply BitVec.eq_of_toNat_eq
  calc
    (s.intAddrReg.extractLsb' 0 4).toNat = s.intAddrReg.toNat % 16 := by simp
    _ = beats % 2 ^ addrWidth % 16 := by rw [hinv.addr]
    _ = beats % 16 := Nat.mod_mod_of_dvd _ hdvd
    _ = 0 := hinv.idle hvalid

theorem intWidReg_eq (hinv : BeatInv beats s) :
    s.intWidReg = BitVec.ofNat axiIdWidth (beats / 16) := by
  apply BitVec.eq_of_toNat_eq
  rw [hinv.wid, BitVec.toNat_ofNat]

end BeatInv

/-- Only an accepted last beat takes `int_wvalid_reg` down. -/
theorem step_wvalid (s : State addrWidth axiIdWidth) (i : Input)
    (hrun : i.aresetn = true) (hvalid : s.intWvalidReg = true)
    (hbeat : intRdenWire s i = false) : (step s i).intWvalidReg = true := by
  have hready : i.mAxiWready = false := by
    simpa [intRdenWire, hvalid] using hbeat
  simp [step, hrun, intWvalidNext, hvalid, hready]

theorem framedCycle_stateAt (axiIdWidth : ℕ) (hwidth : 4 ≤ addrWidth)
    (horizon : ℕ) (hrun : ∀ cycle < horizon, (input cycle).aresetn = true) :
    ∀ cycle ≤ horizon, FramedCycle addrWidth axiIdWidth input cycle := by
  intro cycle hcycle
  have hinv : BeatInv (wBeats addrWidth axiIdWidth input cycle).length
      ((core addrWidth axiIdWidth).stateAt input cycle) :=
    beatInv_stateAt hwidth horizon hrun cycle hcycle
  exact ⟨hinv.wvalid_of_wlast hwidth, hinv.intAddrReg_low hwidth,
    hinv.intWidReg_eq⟩

/-- From a burst boundary on, the channel stays valid for sixteen beats. -/
theorem wvalid_stays (hwidth : 4 ≤ addrWidth) (horizon : ℕ)
    (hrun : ∀ cycle < horizon, (input cycle).aresetn = true) {early late : ℕ}
    (hboundary : (wBeats addrWidth axiIdWidth input early).length % 16 = 0)
    (hvalid :
      ((core addrWidth axiIdWidth).stateAt input early).intWvalidReg = true)
    (hle : early ≤ late) (hlate : late ≤ horizon)
    (hfew : (wBeats addrWidth axiIdWidth input late).length <
      (wBeats addrWidth axiIdWidth input early).length + 16) :
    ((core addrWidth axiIdWidth).stateAt input late).intWvalidReg = true := by
  induction late, hle using Nat.le_induction with
  | base => exact hvalid
  | succ late hle ih =>
      have hgrow := length_wBeats_succ addrWidth axiIdWidth input late
      have hmono : (wBeats addrWidth axiIdWidth input early).length ≤
          (wBeats addrWidth axiIdWidth input late).length :=
        (Machine.log_isPrefix wHandshake hle).length_le
      have hbefore := ih (by omega) (by omega)
      cases hbeat : intRdenWire ((core addrWidth axiIdWidth).stateAt input late)
          (input late) with
      | false =>
          rw [Machine.stateAt_succ]
          exact step_wvalid _ _ (hrun late hlate) hbefore hbeat
      | true =>
          -- a beat inside the burst leaves the counter off the boundary
          rw [hbeat, Bool.toNat_true] at hgrow
          have hinv : BeatInv (wBeats addrWidth axiIdWidth input (late + 1)).length
              ((core addrWidth axiIdWidth).stateAt input (late + 1)) :=
            beatInv_stateAt hwidth horizon hrun (late + 1) hlate
          by_contra hdown
          have hzero := hinv.idle (by simpa using hdown)
          omega

/-- No beat is accepted in the cycle before `m_axi_wvalid` rises. -/
theorem length_wBeats_raised (cycle : ℕ)
    (hlow : ((core addrWidth axiIdWidth).stateAt input cycle).intWvalidReg =
      false) :
    (wBeats addrWidth axiIdWidth input (cycle + 1)).length =
      (wBeats addrWidth axiIdWidth input cycle).length := by
  simp [length_wBeats_succ, intRdenWire, hlow]

/-- The data channel is framed in every run from reset, whatever the slave and
the FIFO flags do. -/
theorem ramWriter_wChannelFramed (addrWidth axiIdWidth : ℕ)
    (hwidth : 4 ≤ addrWidth) (input : ℕ → Input) (horizon : ℕ)
    (hrun : ∀ cycle < horizon, (input cycle).aresetn = true) :
    WChannelFramed addrWidth axiIdWidth input horizon := by
  have hlast : ∀ beat (h : beat <
      (wBeats addrWidth axiIdWidth input horizon).length),
      ((wBeats addrWidth axiIdWidth input horizon)[beat]).last =
        decide (beat % 16 = 15) :=
    wBeats_getElem_eq hwidth horizon hrun WBeat.last _
      fun _ _ hinv => hinv.wlast hwidth
  have hid : ∀ beat (h : beat <
      (wBeats addrWidth axiIdWidth input horizon).length),
      ((wBeats addrWidth axiIdWidth input horizon)[beat]).id =
        BitVec.ofNat axiIdWidth (beat / 16) :=
    wBeats_getElem_eq hwidth horizon hrun WBeat.id
      (fun beat => BitVec.ofNat axiIdWidth (beat / 16))
      fun _ _ hinv => hinv.intWidReg_eq
  refine ⟨framedCycle_stateAt axiIdWidth hwidth horizon hrun, ?_, ?_, ?_, ?_⟩
  · intro raised late hlt hlate hlow hup hfew
    have hinv : BeatInv (wBeats addrWidth axiIdWidth input raised).length
        ((core addrWidth axiIdWidth).stateAt input raised) :=
      beatInv_stateAt hwidth horizon hrun raised (by omega)
    have hboundary : (wBeats addrWidth axiIdWidth input (raised + 1)).length %
        16 = 0 := by
      rw [length_wBeats_raised raised hlow]
      exact hinv.idle hlow
    exact wvalid_stays hwidth horizon hrun hboundary hup hlt hlate hfew
  · intro beat hbeat
    rw [hlast beat hbeat, decide_eq_true_iff]
    omega
  · intro first second hfirst hsecond hsame
    rw [hid first hfirst, hid second hsecond, hsame]
  · intro first second hfirst hsecond hnext
    rw [hid first hfirst, hid second hsecond, ← hnext, BitVec.ofNat_add]
    rfl

/-- Two bursts into a slave that is always ready. -/
theorem ramWriter_wChannelFramed_steadyRun :
    WChannelFramed 4 2 steadyRun 60 :=
  ramWriter_wChannelFramed 4 2 (by decide) steadyRun 60 (fun _ _ => rfl)

end Rfsoc.RamWriter
