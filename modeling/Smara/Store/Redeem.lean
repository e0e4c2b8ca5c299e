import Smara.Store.Credentials

/-! # One-time credentials are redeemed once

Any number of calls present the same code or state, and their statements interleave.

* `pollCliDevice` counts the rows that its `UPDATE` has changed, so at most one poll is answered
  `approved` in every run.
* The other three read no count: `redeemed_once` holds of the runs whose writes find the row still
  unconsumed, and `redeemed_twice` is a run of each in which a second write does not. -/

namespace Smara.Store.Redeem

open Lib.Machine Lib.Table Lib.Transaction Lib.Threads Lib.TwoPhase
open TaskStore.Schema TaskStore.Calls Store.Schema Store.Credentials

/-- A call that raises nothing has redeemed its code. -/
def Succeeds {β : Type} : Except Err β → Prop
  | .ok _ => True
  | .error _ => False

/-- The answer of a poll that issues the device. -/
def Approves : Except Err Poll → Prop
  | .ok (.approved _ _) => True
  | _ => False

instance {β : Type} : DecidablePred (@Succeeds β) := fun a => by
  cases a <;> unfold Succeeds <;> infer_instance

/-! ### What is open -/

def CliPairingOpen (code : String) (st : StoreDb) : Prop :=
  ∃ p ∈ st.cliPairings, p.codeHash = .sha256 code ∧ p.consumedAt = none

def PairingOpen (code : String) (st : StoreDb) : Prop :=
  ∃ p ∈ st.tasks.executorPairings, p.codeHash = .sha256 code ∧ p.consumedAt = none

def OauthStateOpen (state : String) (st : StoreDb) : Prop :=
  ∃ s ∈ st.oauthStates, s.stateHash = .sha256 state ∧ s.consumedAt = none

def DeviceOpen (deviceCode : String) (st : StoreDb) : Prop :=
  ∃ r ∈ st.cliDeviceRequests, r.deviceCodeHash = .sha256 deviceCode ∧ r.consumedAt = none

instance (code : String) (st : StoreDb) : Decidable (CliPairingOpen code st) := by
  unfold CliPairingOpen; infer_instance

instance (code : String) (st : StoreDb) : Decidable (PairingOpen code st) := by
  unfold PairingOpen; infer_instance

instance (state : String) (st : StoreDb) : Decidable (OauthStateOpen state st) := by
  unfold OauthStateOpen; infer_instance

section Rows
variable {ρ : Type*} {p q : ρ → Prop} [DecidablePred p] {f : ρ → ρ} {t : List ρ}

theorem not_open_updateWhere (hp : ∀ r, q r → p r) (hf : ∀ r, ¬ q (f r)) :
    ¬ ∃ r ∈ updateWhere p f t, q r := by
  rintro ⟨r, hr, hq⟩
  obtain ⟨r', -, rfl⟩ := mem_updateWhere.mp hr
  by_cases h : p r'
  · rw [if_pos h] at hq
    exact hf r' hq
  · rw [if_neg h] at hq
    exact h (hp r' hq)

end Rows

/-- A transaction after which nothing is open if it commits, and nothing is if nothing was before. -/
theorem closes_commit {σ ε β : Type} {Valid : σ → Prop} [DecidablePred Valid] {violation : ε}
    {body : σ → Except ε (β × σ)} {Open : σ → Prop} {s : σ}
    (h : ∀ b s', body s = .ok (b, s') → ¬ Open s') :
    ((∃ b, (commit Valid violation body s).1 = .ok b) → ¬ Open (commit Valid violation body s).2) ∧
      (¬ Open s → ¬ Open (commit Valid violation body s).2) := by
  rcases commit_eq Valid violation body s with ⟨b, s', hb, -, he⟩ | ⟨e, he⟩
  · rw [he]
    exact ⟨fun _ => h b s' hb, fun _ => h b s' hb⟩
  · rw [he]
    exact ⟨fun ⟨b, hb⟩ => by simp at hb, id⟩

def Closes {ρ β : Type} (Open : StoreDb → Prop) (call : CheckedCall StoreDb ρ (Except Err β)) : Prop :=
  ∀ row st, ((∃ b, (call.write row st).1 = .ok b) → ¬ Open (call.write row st).2) ∧
    (¬ Open st → ¬ Open (call.write row st).2)

theorem closes_cliPairing (env : Env) (code : String) :
    Closes (CliPairingOpen code) (consumeCliPairing env code) := fun row st =>
  closes_commit fun b st' hb => by
    simp only [Except.ok.injEq, Prod.mk.injEq] at hb
    rw [← hb.2]
    exact not_open_updateWhere (fun _ h => h) fun p => by simp

theorem closes_oauthState (env : Env) (state provider : String) :
    Closes (OauthStateOpen state) (consumeOauthState env state provider) := fun row st =>
  closes_commit fun b st' hb => by
    simp only [Except.ok.injEq, Prod.mk.injEq] at hb
    rw [← hb.2]
    exact not_open_updateWhere (fun _ h => h.1) fun s => by simp

theorem closes_cliDevice (env : Env) (deviceCode : String) :
    Closes (DeviceOpen deviceCode) (pollCliDevice env deviceCode) := fun row st =>
  closes_commit fun b st' hb => by
    simp only [Except.ok.injEq, Prod.mk.injEq] at hb
    rw [← hb.2]
    exact not_open_updateWhere (fun _ h => h) fun r => by simp

theorem closes_pairing (env : Env) (code token : String) :
    Closes (PairingOpen code) (pairExecutor env code token) := fun row st => by
  let Open : TaskDb → Prop := fun db =>
    ∃ p ∈ db.executorPairings, p.codeHash = .sha256 code ∧ p.consumedAt = none
  let body : TaskDb → Except Err (Uuid × TaskDb) := fun db =>
    .ok (env.uuid db.desktopExecutors.length, pairExecutorWrite env code token row db)
  have hwrite : ∀ b db', body st.tasks = .ok (b, db') → ¬ Open db' := fun b db' hb => by
    simp only [body, Except.ok.injEq, Prod.mk.injEq] at hb
    rw [← hb.2]
    exact not_open_updateWhere (fun _ h => h.1) fun p => by simp
  have h : ((∃ b, (commit TaskDb.Constraints Err.integrityError body st.tasks).1 = .ok b) →
      ¬ Open (commit TaskDb.Constraints Err.integrityError body st.tasks).2) ∧
      (¬ Open st.tasks → ¬ Open (commit TaskDb.Constraints Err.integrityError body st.tasks).2) :=
    closes_commit hwrite
  exact h

theorem fresh_pollCliDevice (envs : ℕ → Env) (deviceCode : String)
    (c : Config StoreDb (Phase CliDeviceRequest (Except Err Poll))) (i : ℕ) :
    Fresh (fun i => pollCliDevice (envs i) deviceCode) (DeviceOpen deviceCode) Approves c i := by
  intro row _ hwon
  by_contra hclosed
  have hcount : (c.shared.cliDeviceRequests.countP fun r =>
      r.deviceCodeHash = .sha256 deviceCode ∧ r.consumedAt = none) = 0 := by
    rw [List.countP_eq_zero]
    intro r hr hopen
    exact hclosed ⟨r, hr, of_decide_eq_true hopen⟩
  simp only [pollCliDevice, transact, commit] at hwon
  split_ifs at hwon with hvalid hone
  · exact absurd (hone.symm.trans hcount) (by simp)
  · exact hwon
  · exact hwon

theorem succeeds_iff {β : Type} {a : Except Err β} : Succeeds a ↔ ∃ b, a = .ok b := by
  cases a <;> simp [Succeeds]

theorem not_succeeds_of_found {ρ β : Type} {row : Option ρ} {key : String} {a : Except Err β}
    (h : found row key = .error a) : ¬ Succeeds a := by
  cases row with
  | none =>
    simp only [found, Except.error.injEq] at h
    rw [← h]
    exact id
  | some row => simp [found] at h

/-- **Redeemed once.** The calls `i` read their own clocks, and draw their own tokens. -/
theorem redeemed_once (envs : ℕ → Env) (tokens providers : ℕ → String) {st : StoreDb}
    {code pairingCode state deviceCode : String} {is js ks ls : List ℕ}
    (hcli : Along (step (turn fun i => consumeCliPairing (envs i) code))
      (FindsOpen (CliPairingOpen code)) (start st) is)
    (hpair : Along (step (turn fun i => pairExecutor (envs i) pairingCode (tokens i)))
      (FindsOpen (PairingOpen pairingCode)) (start st) js)
    (hoauth : Along (step (turn fun i => consumeOauthState (envs i) state (providers i)))
      (FindsOpen (OauthStateOpen state)) (start st) ks) :
    AtMostOne Succeeds
        (run (step (turn fun i => consumeCliPairing (envs i) code)) (start st) is) ∧
      AtMostOne Succeeds
        (run (step (turn fun i => pairExecutor (envs i) pairingCode (tokens i))) (start st) js) ∧
      AtMostOne Succeeds
        (run (step (turn fun i => consumeOauthState (envs i) state (providers i))) (start st) ks) ∧
      AtMostOne Approves
        (run (step (turn fun i => pollCliDevice (envs i) deviceCode)) (start st) ls) := by
  refine ⟨winner_unique_of_fresh (fun i s a ha => not_succeeds_of_found ha)
      (fun i row s hwon => (closes_cliPairing _ _ row s).1 (succeeds_iff.mp hwon))
      (fun i row s => (closes_cliPairing _ _ row s).2) (fresh_of_findsOpen hcli),
    winner_unique_of_fresh (fun i s a ha => not_succeeds_of_found ha)
      (fun i row s hwon => (closes_pairing _ _ _ row s).1 (succeeds_iff.mp hwon))
      (fun i row s => (closes_pairing _ _ _ row s).2) (fresh_of_findsOpen hpair),
    winner_unique_of_fresh (fun i s a ha => not_succeeds_of_found ha)
      (fun i row s hwon => (closes_oauthState _ _ _ row s).1 (succeeds_iff.mp hwon))
      (fun i row s => (closes_oauthState _ _ _ row s).2) (fresh_of_findsOpen hoauth),
    winner_unique_of_fresh (fun i s a ha => ?_) (fun i row s hwon => ?_)
      (fun i row s => (closes_cliDevice _ _ row s).2) ?_⟩
  · simp only [pollCliDevice] at ha
    split at ha
    · simp only [Except.error.injEq] at ha
      rw [← ha]
      exact id
    · split_ifs at ha <;>
      · simp only [Except.error.injEq] at ha
        rw [← ha]
        exact id
  · refine (closes_cliDevice _ _ row s).1 ?_
    cases ha : ((pollCliDevice (envs i) deviceCode).write row s).1 with
    | error e =>
      rw [ha] at hwon
      exact hwon.elim
    | ok b => exact ⟨b, rfl⟩
  · exact along_of_inv (I := fun _ => True) (G := fun _ _ => True) (fun _ _ _ _ => trivial)
      (fun c i _ _ => fresh_pollCliDevice envs deviceCode c i) trivial
      (along_of_forall fun _ _ => trivial)

/-- A code of each kind has been issued, and the device is authorized. -/
def issued : StoreDb :=
  let st := (createCliPairing (envAt 0) "code" "a" "laptop" 600 {}).2
  let st := (onTasks (createExecutorPairing (envAt 0) "code" "a" "desktop" []) st).2
  let st := (createOauthState (envAt 0) "a" "github" "state" "verifier" st).2
  let st := (createCliDeviceRequest (envAt 0) "device" "laptop" 600 st).2
  (authorizeCliDevice (envAt 1) "device" "a" st).2

/-- The calls of the threads one after the other. -/
theorem redeemed_once_of_serial :
    AtMostOne Succeeds
        (run (step (turn fun i => consumeCliPairing (envAt i) "code")) (start issued) [0, 0, 1, 1]) ∧
      AtMostOne Succeeds
        (run (step (turn fun i => Credentials.pairExecutor (envAt i) "code" "token")) (start issued)
          [0, 0, 1, 1]) ∧
      AtMostOne Succeeds
        (run (step (turn fun i => consumeOauthState (envAt i) "state" "github")) (start issued)
          [0, 0, 1, 1]) ∧
      AtMostOne Approves
        (run (step (turn fun i => pollCliDevice (envAt i) "device")) (start issued) [0, 1, 0, 1]) :=
  redeemed_once (fun i => envAt i) (fun _ => "token") (fun _ => "github") (by decide) (by decide)
    (by decide)

/-- **The claim fails**: two calls read the row before either of them writes, and both succeed. -/
theorem redeemed_twice :
    ¬ AtMostOne Succeeds
        (run (step (turn fun i => consumeCliPairing (envAt i) "code")) (start issued) [0, 1, 0, 1]) ∧
      ¬ AtMostOne Succeeds
        (run (step (turn fun i => Credentials.pairExecutor (envAt i) "code" "token")) (start issued)
          [0, 1, 0, 1]) ∧
      ¬ AtMostOne Succeeds
        (run (step (turn fun i => consumeOauthState (envAt i) "state" "github")) (start issued)
          [0, 1, 0, 1]) := by
  refine ⟨fun h => ?_, fun h => ?_, fun h => ?_⟩
  · exact absurd (h 0 1 (by decide) (by decide)) (by decide)
  · exact absurd (h 0 1 (by decide) (by decide)) (by decide)
  · exact absurd (h 0 1 (by decide) (by decide)) (by decide)

end Smara.Store.Redeem
