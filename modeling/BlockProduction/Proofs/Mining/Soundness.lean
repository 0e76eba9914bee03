import BlockProduction.Proofs.Bytes
import BlockProduction.Proofs.Mining.Work

/-!
# Mined headers are solved

Nothing that a solver does makes a search give a header that was not solved: it
is the header that was asked for with a nonce of the range and a solution that
the solver verifies for this nonce, and its hash, computed from the absorbed
preimage, is that of its serialization and meets the target.
-/

namespace BlockProduction

/-! ## Hashes of nonce states -/

/-- Neither the nonce nor the solution is part of the preimage. -/
theorem Header.serialize_with (header : Header) (nonce : Hash256) (solution : Bytes) :
    Header.serialize { header with nonce, solution } =
      header.preimage ++ nonce.bytes ++ CompactSize.counted solution := by
  simp only [serialize, preimage]

/-- Absorbing preimage, nonce and solution one after the other is absorbing the header. -/
theorem NonceState.headerHash_ofMidstate (header : Header) (nonce : Word256) (solution : Bytes) :
    (ofMidstate header.midstate nonce).headerHash solution =
      Header.hash { header with nonce := .ofWord nonce, solution } := by
  rw [Header.hash, Header.serialize_with, ← Sha256.finishTwice_absorb_start, Sha256.absorb_append,
    Sha256.absorb_append]
  simp only [headerHash, ofMidstate, Header.midstate]

theorem Hash256.bytes_ofWord (w : Word256) : (Hash256.ofWord w).bytes = leBytes 32 w.toNat :=
  bytes_ofBytes (leBytes_length 32 w.toNat)

/-! ## Parts of a range -/

namespace NonceRange

variable {range part : NonceRange} {parts : Nat}

/-- The parts of a range lie in it. -/
theorem within_of_mem_split (h : part ∈ range.split parts) :
    range.start.toNat ≤ part.start.toNat ∧ part.last.toNat ≤ range.last.toNat := by
  unfold split at h
  cases hempty : range.isEmpty with
  | true => simp [hempty] at h
  | false =>
      simp only [hempty, Bool.false_eq_true, if_false, List.mem_map, List.mem_range] at h
      obtain ⟨i, hi, rfl⟩ := h
      have hordered : range.start.toNat ≤ range.last.toNat := by
        simpa [isEmpty] using hempty
      have hlast := range.last.isLt
      have hsteps : range.width / range.partCount parts * range.partCount parts ≤ range.width :=
        Nat.div_mul_le_self _ _
      have hbelow : ∀ k ≤ range.partCount parts,
          range.start.toNat + range.width / range.partCount parts * k ≤ range.last.toNat := by
        intro k hk
        have hmul := Nat.mul_le_mul_left (range.width / range.partCount parts) hk
        unfold width at hsteps hmul ⊢
        omega
      have hstart := hbelow i (Nat.le_of_lt hi)
      have hnext := hbelow (i + 1) hi
      constructor
      · show range.start.toNat ≤ (BitVec.ofNat 256 _).toNat
        rw [BitVec.toNat_ofNat, Nat.mod_eq_of_lt (by omega)]
        omega
      · show BitVec.toNat (if _ then _ else _) ≤ _
        by_cases hend : i + 1 = range.partCount parts
        · rw [if_pos hend]
        · rw [if_neg hend, BitVec.toNat_ofNat, Nat.mod_eq_of_lt (by omega)]
          omega

end NonceRange

/-! ## Attempts and runs -/

namespace MiningJob

variable {job : MiningJob} {range : NonceRange} {mined : Mined}

/-- The header of a job with a proof of work whose nonce lies in a range. -/
structure Solved (job : MiningJob) (range : NonceRange) (mined : Mined) : Prop where
  header_eq : mined.header =
    { job.header with nonce := mined.header.nonce, solution := mined.header.solution }
  hash_eq : mined.hash = mined.header.hash
  verified : ∃ nonce : Word256, range.start.toNat ≤ nonce.toNat ∧
    nonce.toNat ≤ range.last.toNat ∧ mined.header.nonce.bytes = leBytes 32 nonce.toNat ∧
    job.solver.verify (.ofMidstate job.header.midstate nonce) mined.header.solution = true
  meets : CompactTarget.meets mined.hash job.header.bits job.powLimit = true

theorem Solved.widen {part : NonceRange} (h : job.Solved part mined)
    (hstart : range.start.toNat ≤ part.start.toNat) (hlast : part.last.toNat ≤ range.last.toNat) :
    job.Solved range mined := by
  obtain ⟨nonce, hfirst, hend, hbytes, hverified⟩ := h.verified
  exact ⟨h.header_eq, h.hash_eq,
    ⟨nonce, hstart.trans hfirst, hend.trans hlast, hbytes, hverified⟩, h.meets⟩

theorem Solved.recount (h : job.Solved range mined) (noncesTried solutionsRejected : Nat) :
    job.Solved range { mined with noncesTried, solutionsRejected } :=
  ⟨h.header_eq, h.hash_eq, h.verified, h.meets⟩

theorem accept?_eq_some_iff {state : NonceState} {solution : Bytes} {hash : Hash256} :
    job.accept? state solution = some hash ↔ job.solver.verify state solution = true ∧
      CompactTarget.meets hash job.header.bits job.powLimit = true ∧
      state.headerHash solution = hash := by
  unfold accept?
  by_cases hverify : job.solver.verify state solution = true
  · by_cases hmeets : CompactTarget.meets (state.headerHash solution) job.header.bits
        job.powLimit = true
    · simp only [hverify, hmeets, if_true, Option.some.injEq, true_and]
      constructor
      · rintro rfl
        exact ⟨hmeets, rfl⟩
      · exact fun h => h.2
    · simp only [hverify, hmeets, if_true, true_and]
      constructor
      · intro h
        contradiction
      · rintro ⟨hmet, rfl⟩
        exact absurd hmet hmeets
  · simp [hverify]

/-- A tally only knows solutions that were accepted for its nonce. -/
def Tally.Honest (job : MiningJob) (state : NonceState) (tally : Tally) : Prop :=
  ∀ solution hash, tally.accepted? = some (solution, hash) →
    job.accept? state solution = some hash

/-- Whatever the solver offers after an acceptance or instead of stopping, the tally stays
honest. -/
theorem follow_yields {α : Type} {state : NonceState} {k : Except Error Bool → Tally → Work α}
    {attempt : Attempt} {tally : Tally} {result : α} (htally : tally.Honest job state)
    (h : (job.follow state k attempt tally).Yields result) :
    ∃ answer after, Tally.Honest job state after ∧ (k answer after).Yields result := by
  induction attempt generalizing tally with
  | finish answer => exact ⟨answer, tally, htally, h⟩
  | offer solution next ih =>
      rw [follow] at h
      cases haccept : job.accept? state solution with
      | some hash =>
          rw [haccept] at h
          cases h with
          | note h =>
              apply ih true _ h
              intro other found heq
              cases heq
              exact haccept
      | none =>
          rw [haccept] at h
          cases h with
          | note h =>
              have hmore : Tally.Honest job state { tally with rejected := tally.rejected + 1 } :=
                htally
              exact ih false hmore h
  | poll next ih =>
      cases h with
      | poll raised h => exact ih raised htally h
  | raise next ih =>
      cases h with
      | raise h => exact ih htally h
  | crash => nomatch h

theorem solved_of_accept? {nonce : Word256} {solution : Bytes} {hash : Hash256}
    {noncesTried solutionsRejected : Nat} (hstart : range.start.toNat ≤ nonce.toNat)
    (hlast : nonce.toNat ≤ range.last.toNat)
    (haccept : job.accept? (.ofMidstate job.header.midstate nonce) solution = some hash) :
    job.Solved range
      { header := { job.header with nonce := .ofWord nonce, solution }
        hash, noncesTried, solutionsRejected } := by
  obtain ⟨hverified, hmeets, hhash⟩ := accept?_eq_some_iff.mp haccept
  refine ⟨rfl, ?_, ⟨nonce, hstart, hlast, Hash256.bytes_ofWord nonce, hverified⟩, hmeets⟩
  rw [← hhash]
  exact NonceState.headerHash_ofMidstate job.header nonce solution

/-- A header comes from an accepted solution for this nonce, or from the nonces after it. -/
theorem found_or_later {remaining : Nat} {nonce : Word256} {session after : Session}
    (h : (job.mineFrom job.header.midstate remaining nonce session).Yields (.ok mined, after)) :
    (∃ solution hash noncesTried solutionsRejected,
      job.accept? (.ofMidstate job.header.midstate nonce) solution = some hash ∧
      mined = { header := { job.header with nonce := .ofWord nonce, solution }
                hash, noncesTried, solutionsRejected }) ∨
    ∃ fewer next, remaining = fewer + 1 ∧
      (job.mineFrom job.header.midstate fewer (nonce + 1) next).Yields (.ok mined, after) := by
  unfold mineFrom at h
  cases h with
  | poll raised h =>
      cases raised with
      | true => nomatch h
      | false =>
          cases h with
          | note h =>
              obtain ⟨answer, tally, htally, h⟩ := follow_yields (by nofun) h
              cases answer with
              | error e =>
                  -- whatever the failure is, the run ends without a header
                  cases e <;> nomatch h
              | ok claimed =>
                  cases haccepted : tally.accepted? with
                  | some accepted =>
                      obtain ⟨solution, hash⟩ := accepted
                      simp only [haccepted] at h
                      cases h
                      exact .inl ⟨solution, hash, _, _, htally solution hash haccepted, rfl⟩
                  | none =>
                      simp only [haccepted] at h
                      cases remaining with
                      | zero => nomatch h
                      | succ fewer => exact .inr ⟨fewer, _, rfl, h⟩

theorem mineFrom_solved {remaining : Nat} {nonce : Word256} {session after : Session}
    (hstart : range.start.toNat ≤ nonce.toNat)
    (hlast : nonce.toNat + remaining ≤ range.last.toNat)
    (h : (job.mineFrom job.header.midstate remaining nonce session).Yields (.ok mined, after)) :
    job.Solved range mined := by
  induction remaining generalizing nonce session with
  | zero =>
      rcases found_or_later h with ⟨solution, hash, _, _, haccept, rfl⟩ | ⟨fewer, next, hmore, -⟩
      · exact solved_of_accept? hstart (by omega) haccept
      · omega
  | succ remaining ih =>
      rcases found_or_later h with ⟨solution, hash, _, _, haccept, rfl⟩ | ⟨fewer, next, hmore, hnext⟩
      · exact solved_of_accept? hstart (by omega) haccept
      · obtain rfl : remaining = fewer := by omega
        -- the next nonce does not wrap, since the last one is a word
        have hword := range.last.isLt
        have hnonce : (nonce + 1).toNat = nonce.toNat + 1 := by
          have hone : BitVec.toNat (1 : Word256) = 1 := rfl
          rw [BitVec.toNat_add, hone]
          omega
        exact ih (by omega) (by omega) hnext

theorem run_solved {session after : Session}
    (h : (job.run session range).Yields (.ok mined, after)) : job.Solved range mined := by
  unfold run at h
  cases hempty : range.isEmpty with
  | true =>
      rw [hempty] at h
      nomatch h
  | false =>
      have hordered : range.start.toNat ≤ range.last.toNat := by
        simpa [NonceRange.isEmpty] using hempty
      rw [hempty] at h
      apply mineFrom_solved (Nat.le_refl _) _ h
      unfold NonceRange.width
      omega

theorem worker_solved (h : (job.worker range).Yields (.ok mined)) : job.Solved range mined := by
  obtain ⟨⟨result, after⟩, hrun, hresult⟩ := Work.yields_bind h
  cases result with
  | ok found =>
      cases hresult with
      | raise hdone =>
          cases hdone
          exact run_solved hrun
  | error e => nomatch hresult

/-- Whatever the solver does and whatever the flags show, a session and a search by any number
of workers, in any course of events, give solved headers only. -/
theorem mined_solved (job : MiningJob) (range : NonceRange) :
    (∀ (session after : Session) (mined : Mined),
      (job.run session range).Yields (.ok mined, after) → job.Solved range mined) ∧
    ∀ (workers : Nat) (caller : CancelFlag) (turns : List Search.Turn) (flags after : FlagStore)
      (mined : Mined), job.mine workers range caller turns flags = (.ok mined, after) →
      job.Solved range mined := by
  refine ⟨fun session after mined h => run_solved h, ?_⟩
  intro workers caller turns flags after mined h
  have hstart : Search.Finds (job.Solved range)
      (Search.start job workers range caller flags).workers := by
    intro work hwork found hfound
    obtain ⟨part, hpart, rfl⟩ := List.mem_map.mp hwork
    obtain ⟨hfirst, hlast⟩ := NonceRange.within_of_mem_split hpart
    exact (worker_solved hfound).widen hfirst hlast
  have houtcome := (Prod.mk.inj h).1
  obtain ⟨winner, hwinner, heq⟩ := (hstart.run turns).outcome houtcome
  rw [heq]
  exact hwinner.recount _ _

/-- A solver that goes on offering after an acceptance, and a target that half of all hashes
meet. -/
def insistentJob : MiningJob where
  solver := .scripted "insistent" [[2]] [] ⟨[[], [2]], true, .claim⟩
  header := { (default : Header) with bits := 0x207fffff, solution := [7] }
  powLimit := BitVec.allOnes 256 >>> 1

theorem mined_solved_insistentJob :
    (∃ after mined, (insistentJob.run default ⟨6, 8⟩).Yields (.ok mined, after) ∧
      insistentJob.Solved ⟨6, 8⟩ mined) ∧
    ∃ after mined, insistentJob.mine 2 ⟨6, 8⟩ ⟨0, none⟩ [.worker 1, .worker 0] ⟨[false]⟩ =
      (.ok mined, after) ∧ insistentJob.Solved ⟨6, 8⟩ mined := by
  have hsound := mined_solved insistentJob ⟨6, 8⟩
  have halone : (((insistentJob.run default ⟨6, 8⟩).runAlone ⟨0, none⟩ ⟨[false]⟩).1.any
      fun result => result.1.isOk) = true := by decide +kernel
  have hall : (insistentJob.mine 2 ⟨6, 8⟩ ⟨0, none⟩ [.worker 1, .worker 0] ⟨[false]⟩).1.isOk =
      true := by decide +kernel
  constructor
  · cases hrun : (insistentJob.run default ⟨6, 8⟩).runAlone ⟨0, none⟩ ⟨[false]⟩ with
    | mk result flags =>
        cases result with
        | none =>
            rw [hrun] at halone
            nomatch halone
        | some ended =>
            obtain ⟨outcome, after⟩ := ended
            cases outcome with
            | error e =>
                rw [hrun] at halone
                nomatch halone
            | ok mined =>
                have hyields := Work.yields_of_runAlone hrun
                exact ⟨after, mined, hyields, hsound.1 _ _ _ hyields⟩
  · cases hmine : insistentJob.mine 2 ⟨6, 8⟩ ⟨0, none⟩ [.worker 1, .worker 0] ⟨[false]⟩ with
    | mk outcome after =>
        cases outcome with
        | error e =>
            rw [hmine] at hall
            nomatch hall
        | ok mined => exact ⟨after, mined, rfl, hsound.2 _ _ _ _ _ _ hmine⟩

end MiningJob

end BlockProduction
