import Mathlib.Data.Rat.Floor
import Smara.Lib.Machine

/-! # Token buckets

`RateLimiter.acquire` keeps a bucket of tokens for each client, which it refills when the client comes.

* `acquire`: a request for tokens.
* `available`: what the bucket of a client would hold at a time.
* `Inv`: no bucket is below zero or over the capacity.
* `sum_granted_le`: what is granted from a time on was available then, or has been refilled since.
* `token_bucket`: the bound over every interval, and the wait that is advertised. -/

namespace Smara.Limiter.Bucket

open Lib.Machine

/-! ### Requests -/

/-- `RateLimitConfig`, as far as `acquire` reads it. -/
structure Config where
  capacity : ℚ
  refillRate : ℚ
  banSeconds : ℚ
  capacity_nonneg : 0 ≤ capacity
  refill_nonneg : 0 ≤ refillRate

structure TokenBucket where
  tokens : ℚ
  lastRefill : ℚ
  bannedUntil : ℚ := 0

/-- The headers of an answer: `Retry-After`, and the three of `X-RateLimit`. -/
structure Headers where
  retryAfter : Option ℤ := none
  limit : ℤ
  remaining : ℤ := 0
  reset : ℤ

/-- `int` of a number: towards zero. -/
def int (x : ℚ) : ℤ := if 0 ≤ x then ⌊x⌋ else ⌈x⌉

abbrev Buckets := String → Option TokenBucket

/-- A call of `acquire` at a time of the clock. -/
structure Call where
  client : String
  tokens : ℚ
  now : ℚ

variable (cfg : Config)

/-- `self._buckets.get(client_id)`, or a full bucket -/
def bucketOf (buckets : Buckets) (c : Call) : TokenBucket :=
  (buckets c.client).getD { tokens := cfg.capacity, lastRefill := c.now }

/-- `min(capacity, tokens + elapsed * refill_rate)` -/
def refilled (b : TokenBucket) (now : ℚ) : ℚ :=
  min cfg.capacity (b.tokens + max 0 (now - b.lastRefill) * cfg.refillRate)

/-- **`acquire`**: whether the request is granted, the headers, and the bucket afterwards. -/
def decision (b : TokenBucket) (c : Call) : Bool × Headers × TokenBucket :=
  let limit := int cfg.capacity
  if b.bannedUntil > c.now then
    (false, { retryAfter := some (int (b.bannedUntil - c.now) + 1), limit, reset := int b.bannedUntil }, b)
  else
    let tokens := refilled cfg b c.now
    let rate := max (1 / 1000) cfg.refillRate
    if c.tokens ≤ tokens then
      let left := tokens - c.tokens
      (true, { limit, remaining := int left, reset := int (c.now + (cfg.capacity - left) / rate) },
        { b with tokens := left, lastRefill := c.now })
    else
      let wait := max 1 (int ((c.tokens - tokens) / rate) + 1)
      if 0 < cfg.banSeconds then
        let wait := int cfg.banSeconds
        (false, { retryAfter := some wait, limit, reset := int (c.now + wait) },
          { tokens, lastRefill := c.now, bannedUntil := c.now + cfg.banSeconds })
      else
        (false, { retryAfter := some wait, limit, reset := int (c.now + wait) },
          { b with tokens, lastRefill := c.now })

def answer (buckets : Buckets) (c : Call) : Bool × Headers :=
  let r := decision cfg (bucketOf cfg buckets c) c
  (r.1, r.2.1)

def acquire (buckets : Buckets) (c : Call) : Buckets :=
  Function.update buckets c.client (some (decision cfg (bucketOf cfg buckets c) c).2.2)

def granted : Buckets → List Call → List Call
  | _, [] => []
  | buckets, c :: cs => (if (answer cfg buckets c).1 then [c] else []) ++ granted (acquire cfg buckets c) cs

/-- The tokens that a client is granted in the interval from `t` to `t + d`. -/
def grantedWithin (buckets : Buckets) (calls : List Call) (client : String) (t d : ℚ) : ℚ :=
  (((granted cfg buckets calls).filter fun c => c.client = client ∧ t ≤ c.now ∧ c.now ≤ t + d).map Call.tokens).sum

/-- The clock does not go back. -/
def Ordered (calls : List Call) : Prop := calls.Pairwise fun c c' => c.now ≤ c'.now

/-! ### What is available -/

/-- What the bucket of a client would hold at a time. -/
def available (buckets : Buckets) (client : String) (now : ℚ) : ℚ :=
  match buckets client with
  | none => cfg.capacity
  | some b => refilled cfg b now

variable {cfg} {buckets : Buckets} {b : TokenBucket} {c : Call} {cs calls : List Call} {client : String} {s t : ℚ}

/-- **What a call does to a bucket**: nothing while the client is banned; otherwise it is refilled, and the request taken
from it if it holds enough. -/
theorem decision_cases (cfg : Config) (b : TokenBucket) (c : Call) :
    (c.now < b.bannedUntil ∧ (decision cfg b c).1 = false ∧ (decision cfg b c).2.2 = b) ∨
    (b.bannedUntil ≤ c.now ∧ c.tokens ≤ refilled cfg b c.now ∧ (decision cfg b c).1 = true ∧
      (decision cfg b c).2.2 = ⟨refilled cfg b c.now - c.tokens, c.now, b.bannedUntil⟩) ∨
    (b.bannedUntil ≤ c.now ∧ refilled cfg b c.now < c.tokens ∧ (decision cfg b c).1 = false ∧
      ∃ banned, (decision cfg b c).2.2 = ⟨refilled cfg b c.now, c.now, banned⟩ ∧
        (cfg.banSeconds ≤ 0 → banned = b.bannedUntil)) := by
  unfold decision
  simp only
  by_cases hbanned : b.bannedUntil > c.now
  · rw [if_pos hbanned]
    exact Or.inl ⟨hbanned, rfl, rfl⟩
  rw [if_neg hbanned]
  by_cases henough : c.tokens ≤ refilled cfg b c.now
  · rw [if_pos henough]
    exact Or.inr (Or.inl ⟨not_lt.mp hbanned, henough, rfl, rfl⟩)
  rw [if_neg henough]
  refine Or.inr (Or.inr ⟨not_lt.mp hbanned, not_le.mp henough, ?_⟩)
  by_cases hban : 0 < cfg.banSeconds
  · rw [if_pos hban]
    exact ⟨rfl, _, rfl, fun hle => absurd hban (not_lt.mpr hle)⟩
  · rw [if_neg hban]
    exact ⟨rfl, _, rfl, fun _ => rfl⟩

@[simp] theorem granted_cons : granted cfg buckets (c :: cs) =
    (if (answer cfg buckets c).1 then [c] else []) ++ granted cfg (acquire cfg buckets c) cs := rfl

theorem mem_granted (h : c ∈ granted cfg buckets calls) : c ∈ calls := by
  induction calls generalizing buckets with
  | nil => exact h
  | cons d cs ih =>
    rw [granted_cons] at h
    rcases List.mem_append.mp h with h | h
    · split_ifs at h
      · exact List.mem_cons.mpr (Or.inl (List.mem_singleton.mp h))
      · exact absurd h List.not_mem_nil
    · exact List.mem_cons_of_mem _ (ih h)

theorem refilled_le (b : TokenBucket) (now : ℚ) : refilled cfg b now ≤ cfg.capacity := min_le_left _ _

theorem available_le : available cfg buckets client t ≤ cfg.capacity := by
  unfold available
  split
  · exact le_rfl
  · exact refilled_le _ _

theorem refilled_later (b : TokenBucket) (hst : s ≤ t) :
    refilled cfg b t ≤ refilled cfg b s + cfg.refillRate * (t - s) := by
  have hgain : 0 ≤ cfg.refillRate * (t - s) := mul_nonneg cfg.refill_nonneg (by linarith)
  have hmax : max 0 (t - b.lastRefill) ≤ max 0 (s - b.lastRefill) + (t - s) := by
    refine max_le ?_ ?_
    · have := le_max_left 0 (s - b.lastRefill)
      linarith
    · have := le_max_right 0 (s - b.lastRefill)
      linarith
  have hmul := mul_le_mul_of_nonneg_right hmax cfg.refill_nonneg
  unfold refilled
  rcases min_cases cfg.capacity (b.tokens + max 0 (s - b.lastRefill) * cfg.refillRate) with ⟨hmin, -⟩ | ⟨hmin, -⟩
  · rw [hmin]
    exact (min_le_left _ _).trans (by linarith)
  · rw [hmin]
    refine (min_le_right _ _).trans ?_
    rw [add_mul] at hmul
    linarith

theorem available_later (hst : s ≤ t) :
    available cfg buckets client t ≤ available cfg buckets client s + cfg.refillRate * (t - s) := by
  unfold available
  split
  · have := mul_nonneg cfg.refill_nonneg (sub_nonneg.mpr hst)
    linarith
  · exact refilled_later _ hst

theorem available_other (h : c.client ≠ client) :
    available cfg (acquire cfg buckets c) client t = available cfg buckets client t := by
  unfold available acquire
  rw [Function.update_of_ne h.symm]

theorem available_eq (buckets : Buckets) (c : Call) :
    available cfg buckets c.client c.now = refilled cfg (bucketOf cfg buckets c) c.now := by
  unfold available bucketOf
  cases buckets c.client with
  | none =>
    show cfg.capacity = refilled cfg ⟨cfg.capacity, c.now, 0⟩ c.now
    unfold refilled
    rw [sub_self, max_self, zero_mul, add_zero, min_self]
  | some b => rfl

/-- **A call** leaves what was available, less what it is granted. -/
theorem available_acquire (cfg : Config) (buckets : Buckets) (c : Call) :
    available cfg (acquire cfg buckets c) c.client c.now + (if (answer cfg buckets c).1 then c.tokens else 0) ≤
      available cfg buckets c.client c.now := by
  rw [available_eq buckets c]
  have hafter : available cfg (acquire cfg buckets c) c.client c.now =
      refilled cfg (decision cfg (bucketOf cfg buckets c) c).2.2 c.now := by
    unfold available acquire
    rw [Function.update_self]
  have hself : ∀ (tokens banned : ℚ), refilled cfg ⟨tokens, c.now, banned⟩ c.now ≤ tokens := by
    intro tokens banned
    unfold refilled
    rw [sub_self, max_self, zero_mul, add_zero]
    exact min_le_right _ _
  rw [hafter]
  unfold answer
  obtain ⟨-, hanswer, hb⟩ | ⟨-, -, hanswer, hb⟩ | ⟨-, -, hanswer, _, hb, -⟩ :=
    decision_cases cfg (bucketOf cfg buckets c) c
  · rw [hanswer, hb, if_neg Bool.false_ne_true, add_zero]
  · rw [hanswer, hb, if_pos rfl]
    have := hself (refilled cfg (bucketOf cfg buckets c) c.now - c.tokens) (bucketOf cfg buckets c).bannedUntil
    linarith
  · rw [hanswer, hb, if_neg Bool.false_ne_true, add_zero]
    exact hself _ _

/-! ### The buckets -/

/-- **Every bucket lies between zero and the capacity.** -/
def Inv (cfg : Config) (buckets : Buckets) : Prop :=
  ∀ client b, buckets client = some b → 0 ≤ b.tokens ∧ b.tokens ≤ cfg.capacity

theorem inv_empty : Inv cfg fun _ => none := fun _ _ h => nomatch h

theorem refilled_nonneg (h : 0 ≤ b.tokens) (now : ℚ) : 0 ≤ refilled cfg b now :=
  le_min cfg.capacity_nonneg (add_nonneg h (mul_nonneg (le_max_left _ _) cfg.refill_nonneg))

theorem Inv.bucketOf (h : Inv cfg buckets) (c : Call) :
    0 ≤ (bucketOf cfg buckets c).tokens ∧ (bucketOf cfg buckets c).tokens ≤ cfg.capacity := by
  unfold Bucket.bucketOf
  cases hb : buckets c.client with
  | none => exact ⟨cfg.capacity_nonneg, le_rfl⟩
  | some b => exact h _ _ hb

theorem Inv.available (h : Inv cfg buckets) (client : String) (t : ℚ) : 0 ≤ available cfg buckets client t := by
  unfold Bucket.available
  cases hb : buckets client with
  | none => exact cfg.capacity_nonneg
  | some b => exact refilled_nonneg (h _ _ hb).1 t

theorem inv_acquire (h : Inv cfg buckets) (hpos : 0 < c.tokens) : Inv cfg (acquire cfg buckets c) := by
  intro client b hb
  unfold acquire at hb
  by_cases hclient : client = c.client
  · subst hclient
    rw [Function.update_self] at hb
    obtain rfl := Option.some.inj hb
    have hrefilled : 0 ≤ refilled cfg (bucketOf cfg buckets c) c.now := refilled_nonneg (h.bucketOf c).1 c.now
    have hle : refilled cfg (bucketOf cfg buckets c) c.now ≤ cfg.capacity := refilled_le _ _
    obtain ⟨-, -, hb⟩ | ⟨-, hle', -, hb⟩ | ⟨-, -, -, _, hb, -⟩ := decision_cases cfg (bucketOf cfg buckets c) c
    · rw [hb]
      exact h.bucketOf c
    · rw [hb]
      exact ⟨sub_nonneg.mpr hle', by show _ - c.tokens ≤ _; linarith⟩
    · rw [hb]
      exact ⟨hrefilled, hle⟩
  · rw [Function.update_of_ne hclient] at hb
    exact h client b hb

/-! ### Intervals -/

/-- **What is granted up to the time `t`**, from a state at the time `s` on, was available then or refilled since. -/
theorem sum_granted_le (client : String) (hinv : Inv cfg buckets) (hpos : ∀ c ∈ calls, 0 < c.tokens) (hordered : Ordered calls)
    (hfrom : ∀ c ∈ calls, s ≤ c.now) (hst : s ≤ t) :
    (((granted cfg buckets calls).filter fun c => c.client = client ∧ c.now ≤ t).map Call.tokens).sum ≤
      available cfg buckets client s + cfg.refillRate * (t - s) := by
  have hnonneg : ∀ (buckets : Buckets) (s : ℚ), Inv cfg buckets → s ≤ t →
      0 ≤ available cfg buckets client s + cfg.refillRate * (t - s) := fun buckets s hinv hst =>
    add_nonneg (hinv.available client s) (mul_nonneg cfg.refill_nonneg (sub_nonneg.mpr hst))
  induction calls generalizing buckets s with
  | nil => exact hnonneg buckets s hinv hst
  | cons c cs ih =>
    obtain ⟨hlater, hordered⟩ := List.pairwise_cons.mp hordered
    have hinv' := inv_acquire hinv (hpos c List.mem_cons_self)
    have hpos' : ∀ d ∈ cs, 0 < d.tokens := fun d hd => hpos d (List.mem_cons_of_mem _ hd)
    by_cases ht : c.now ≤ t
    · have hrest := ih hinv' hpos' hordered hlater ht
      have hgain : available cfg buckets client c.now ≤ available cfg buckets client s + cfg.refillRate * (c.now - s) :=
        available_later (hfrom c List.mem_cons_self)
      have hsplit : cfg.refillRate * (t - s) = cfg.refillRate * (t - c.now) + cfg.refillRate * (c.now - s) := by ring
      rw [granted_cons, List.filter_append, List.map_append, List.sum_append]
      by_cases hclient : c.client = client
      · have hcall := available_acquire cfg buckets c
        rw [hclient] at hcall
        have hhead : (((if (answer cfg buckets c).1 then [c] else []).filter fun c =>
            c.client = client ∧ c.now ≤ t).map Call.tokens).sum = if (answer cfg buckets c).1 then c.tokens else 0 := by
          split_ifs <;> simp [hclient, ht]
        rw [hhead]
        linarith
      · have hhead : (((if (answer cfg buckets c).1 then [c] else []).filter fun c =>
            c.client = client ∧ c.now ≤ t).map Call.tokens).sum = 0 := by
          split_ifs <;> simp [hclient]
        rw [available_other hclient] at hrest
        rw [hhead]
        linarith
    · have hnone : (granted cfg buckets (c :: cs)).filter (fun c => c.client = client ∧ c.now ≤ t) = [] := by
        refine List.filter_eq_nil_iff.mpr fun d hd => ?_
        have hle : c.now ≤ d.now := by
          rcases List.mem_cons.mp (mem_granted hd) with rfl | hd
          · exact le_rfl
          · exact hlater d hd
        have hlt := (not_le.mp ht).trans_le hle
        simp [not_le.mpr hlt]
      rw [hnone]
      exact hnonneg buckets s hinv hst

/-- **The bound over an interval.** -/
theorem grantedWithin_le (hinv : Inv cfg buckets) (hpos : ∀ c ∈ calls, 0 < c.tokens) (hordered : Ordered calls)
    (client : String) (t : ℚ) {d : ℚ} (hd : 0 ≤ d) :
    grantedWithin cfg buckets calls client t d ≤ cfg.capacity + cfg.refillRate * d := by
  induction calls generalizing buckets with
  | nil => exact add_nonneg cfg.capacity_nonneg (mul_nonneg cfg.refill_nonneg hd)
  | cons c cs ih =>
    have hcons := List.pairwise_cons.mp hordered
    by_cases hbefore : c.now < t
    · have hrest := ih (inv_acquire hinv (hpos c List.mem_cons_self)) (fun d hd => hpos d (List.mem_cons_of_mem _ hd))
        hcons.2
      have hhead : (if (answer cfg buckets c).1 then [c] else []).filter (fun c =>
          c.client = client ∧ t ≤ c.now ∧ c.now ≤ t + d) = [] := by
        split_ifs <;> simp [not_le.mpr hbefore]
      unfold grantedWithin at hrest ⊢
      rw [granted_cons, List.filter_append, hhead, List.nil_append]
      exact hrest
    · have hfrom : ∀ e ∈ c :: cs, t ≤ e.now := by
        intro e he
        rcases List.mem_cons.mp he with rfl | he
        · exact not_lt.mp hbefore
        · exact (not_lt.mp hbefore).trans (hcons.1 e he)
      have hfilter : (granted cfg buckets (c :: cs)).filter (fun c =>
          c.client = client ∧ t ≤ c.now ∧ c.now ≤ t + d) =
          (granted cfg buckets (c :: cs)).filter fun c => c.client = client ∧ c.now ≤ t + d := by
        refine List.filter_congr fun e he => ?_
        simp [hfrom e (mem_granted he)]
      have hsum := sum_granted_le client hinv hpos hordered hfrom (show t ≤ t + d by linarith)
      have hle : available cfg buckets client t ≤ cfg.capacity := available_le
      have hwidth : t + d - t = d := by ring
      rw [hwidth] at hsum
      unfold grantedWithin
      rw [hfilter]
      linarith

/-! ### The advertised wait -/

/-- **What holds without a ban**: no bucket is banned, none was refilled later than now, and before the epoch all are
full. -/
def Free (cfg : Config) (now : ℚ) (buckets : Buckets) : Prop :=
  ∀ client b, buckets client = some b → b.bannedUntil = 0 ∧ b.lastRefill ≤ now ∧
    (b.lastRefill < 0 → b.tokens = cfg.capacity)

theorem free_empty (now : ℚ) : Free cfg now fun _ => none := fun _ _ h => nomatch h

theorem Free.bucketOf (h : Free cfg s buckets) (hs : s ≤ c.now) : (bucketOf cfg buckets c).bannedUntil = 0 ∧
    (bucketOf cfg buckets c).lastRefill ≤ c.now ∧
      ((bucketOf cfg buckets c).lastRefill < 0 → (bucketOf cfg buckets c).tokens = cfg.capacity) := by
  unfold Bucket.bucketOf
  cases hb : buckets c.client with
  | none => exact ⟨rfl, le_rfl, fun _ => rfl⟩
  | some b =>
    obtain ⟨hbanned, hlast, hfull⟩ := h _ _ hb
    exact ⟨hbanned, hlast.trans hs, hfull⟩

theorem free_acquire (hban : cfg.banSeconds ≤ 0) (h : Free cfg s buckets) (hs : s ≤ c.now) :
    Free cfg c.now (acquire cfg buckets c) := by
  intro client b hb
  unfold acquire at hb
  by_cases hclient : client = c.client
  · subst hclient
    rw [Function.update_self] at hb
    obtain rfl := Option.some.inj hb
    obtain ⟨hbanned, hlast, hfull⟩ := h.bucketOf hs
    obtain ⟨-, -, hb⟩ | ⟨hnow, -, -, hb⟩ | ⟨hnow, -, -, banned, hb, hsame⟩ :=
      decision_cases cfg (bucketOf cfg buckets c) c
    · rw [hb]
      exact ⟨hbanned, hlast, hfull⟩
    · rw [hb]
      exact ⟨hbanned, le_rfl, fun hlt => absurd hlt (not_lt.mpr (hbanned ▸ hnow))⟩
    · rw [hb]
      exact ⟨(hsame hban).trans hbanned, le_rfl, fun hlt => absurd hlt (not_lt.mpr (hbanned ▸ hnow))⟩
  · rw [Function.update_of_ne hclient] at hb
    obtain ⟨hbanned, hlast, hfull⟩ := h client b hb
    exact ⟨hbanned, hlast.trans hs, hfull⟩

theorem lt_int_add_one {x : ℚ} (h : 0 ≤ x) : x < int x + 1 := by
  unfold int
  rw [if_pos h]
  exact Int.lt_floor_add_one x

theorem answer_of_refilled (hbanned : (bucketOf cfg buckets c).bannedUntil ≤ c.now)
    (h : c.tokens ≤ refilled cfg (bucketOf cfg buckets c) c.now) : (answer cfg buckets c).1 = true := by
  unfold answer decision
  simp only
  rw [if_neg (not_lt.mpr hbanned), if_pos h]

/-- **The wait is long enough**: a refused client that comes again after it is granted its request. -/
theorem granted_after_wait (hban : cfg.banSeconds ≤ 0) (hrate : 1 / 1000 ≤ cfg.refillRate) (h : Free cfg s buckets)
    (hs : s ≤ c.now) (hle : c.tokens ≤ cfg.capacity) (hrefused : (answer cfg buckets c).1 = false) :
    ∃ wait, (answer cfg buckets c).2.retryAfter = some wait ∧
      (answer cfg (acquire cfg buckets c) { c with now := c.now + wait }).1 = true := by
  obtain ⟨hbanned, hlast, hfull⟩ := h.bucketOf hs
  have hmax : max (1 / 1000) cfg.refillRate = cfg.refillRate := max_eq_right hrate
  have hpos : 0 < cfg.refillRate := lt_of_lt_of_le (by norm_num) hrate
  have hafter : ∀ now, bucketOf cfg (acquire cfg buckets c) { c with now := now } =
      (decision cfg (bucketOf cfg buckets c) c).2.2 := by
    intro now
    unfold acquire
    show (Function.update buckets c.client _ c.client).getD _ = _
    rw [Function.update_self]
    rfl
  by_cases hearly : (0 : ℚ) > c.now
  · -- before the epoch the bucket is full, and the ban of `banned_until = 0` ends within the wait
    have hdecision : decision cfg (bucketOf cfg buckets c) c =
        (false, { retryAfter := some (int (0 - c.now) + 1), limit := int cfg.capacity, reset := int 0 },
          bucketOf cfg buckets c) := by
      unfold decision
      simp only [hbanned]
      rw [if_pos hearly]
    refine ⟨int (0 - c.now) + 1, by unfold answer; rw [hdecision], ?_⟩
    have hwait := lt_int_add_one (show 0 ≤ 0 - c.now by linarith)
    refine answer_of_refilled ?_ ?_
    · rw [hafter, hdecision, hbanned]
      push_cast
      linarith
    · rw [hafter, hdecision]
      show c.tokens ≤ refilled cfg (bucketOf cfg buckets c) _
      unfold refilled
      rw [hfull (lt_of_le_of_lt hlast hearly)]
      exact le_min hle (hle.trans (le_add_of_nonneg_right (mul_nonneg (le_max_left _ _) cfg.refill_nonneg)))
  · have hshort : ¬ c.tokens ≤ refilled cfg (bucketOf cfg buckets c) c.now := by
      intro henough
      rw [answer_of_refilled (by rw [hbanned]; exact not_lt.mp hearly) henough] at hrefused
      exact Bool.noConfusion hrefused
    generalize hheld : refilled cfg (bucketOf cfg buckets c) c.now = held at hshort
    generalize hwait : max 1 (int ((c.tokens - held) / cfg.refillRate) + 1) = wait
    have hdecision : decision cfg (bucketOf cfg buckets c) c =
        (false, { retryAfter := some wait, limit := int cfg.capacity, reset := int (c.now + wait) },
          { tokens := held, lastRefill := c.now }) := by
      unfold decision
      simp only [hbanned, hheld, hmax, hwait]
      rw [if_neg hearly, if_neg hshort, if_neg (not_lt.mpr hban)]
    refine ⟨wait, by unfold answer; rw [hdecision], ?_⟩
    have hone : (1 : ℤ) ≤ wait := hwait ▸ le_max_left _ _
    have hlong : (c.tokens - held) / cfg.refillRate < wait := by
      have hint := lt_int_add_one (div_nonneg (sub_nonneg.mpr (not_le.mp hshort).le) hpos.le)
      have hmax' : int ((c.tokens - held) / cfg.refillRate) + 1 ≤ wait := hwait ▸ le_max_right _ _
      have hcast : ((int ((c.tokens - held) / cfg.refillRate) : ℚ) + 1) ≤ wait := by exact_mod_cast hmax'
      linarith
    have hgain : c.tokens - held < wait * cfg.refillRate := (div_lt_iff₀ hpos).mp hlong
    have hone' : (1 : ℚ) ≤ wait := by exact_mod_cast hone
    refine answer_of_refilled ?_ ?_
    · rw [hafter, hdecision]
      show (0 : ℚ) ≤ c.now + wait
      linarith
    · rw [hafter, hdecision]
      show c.tokens ≤ min cfg.capacity (held + max 0 (c.now + wait - c.now) * cfg.refillRate)
      have helapsed : max 0 (c.now + (wait : ℚ) - c.now) = wait := by
        rw [add_sub_cancel_left]
        exact max_eq_right (by linarith)
      rw [helapsed]
      exact le_min hle (by linarith)

/-! ### Runs -/

theorem inv_calls (hinv : Inv cfg buckets) (hpos : ∀ c ∈ calls, 0 < c.tokens) :
    Inv cfg (run (acquire cfg) buckets calls) := by
  induction calls generalizing buckets with
  | nil => exact hinv
  | cons c cs ih =>
    rw [run_cons]
    exact ih (inv_acquire hinv (hpos c List.mem_cons_self)) fun d hd => hpos d (List.mem_cons_of_mem _ hd)

theorem free_calls (hban : cfg.banSeconds ≤ 0) (h : Free cfg s buckets) (hordered : Ordered (cs ++ [c]))
    (hfrom : ∀ d ∈ cs ++ [c], s ≤ d.now) : ∃ s' ≤ c.now, Free cfg s' (run (acquire cfg) buckets cs) := by
  induction cs generalizing buckets s with
  | nil => exact ⟨s, hfrom c (by simp), h⟩
  | cons d cs ih =>
    obtain ⟨hlater, hordered⟩ := List.pairwise_cons.mp hordered
    rw [run_cons]
    exact ih (free_acquire hban h (hfrom d (by simp))) hordered hlater

/-- **The token bucket**: over every run of calls with positive requests and a clock that does not go back, a client
is granted no more in an interval than the capacity and what is refilled in it, its bucket stays between zero and the
capacity, and the wait that a refusal advertises is long enough. -/
theorem token_bucket (cfg : Config) (calls : List Call) (hpos : ∀ c ∈ calls, 0 < c.tokens) (hordered : Ordered calls) :
    (∀ client t d, 0 ≤ d → grantedWithin cfg (fun _ => none) calls client t d ≤ cfg.capacity + cfg.refillRate * d) ∧
      (∀ pre post, calls = pre ++ post → Inv cfg (run (acquire cfg) (fun _ => none) pre)) ∧
        (cfg.banSeconds ≤ 0 → 1 / 1000 ≤ cfg.refillRate → ∀ pre c post, calls = pre ++ c :: post →
          c.tokens ≤ cfg.capacity → (answer cfg (run (acquire cfg) (fun _ => none) pre) c).1 = false →
            ∃ wait, (answer cfg (run (acquire cfg) (fun _ => none) pre) c).2.retryAfter = some wait ∧
              (answer cfg (run (acquire cfg) (fun _ => none) (pre ++ [c])) { c with now := c.now + wait }).1 = true) := by
  refine ⟨fun client t d hd => grantedWithin_le inv_empty hpos hordered client t hd, ?_, ?_⟩
  · rintro pre post rfl
    exact inv_calls inv_empty fun c hc => hpos c (List.mem_append_left _ hc)
  · rintro hban hrate pre c post rfl hle hrefused
    have hsub : (pre ++ [c]).Sublist (pre ++ c :: post) := by simp
    have hprefix : Ordered (pre ++ [c]) := hordered.sublist hsub
    obtain ⟨first, hfirst⟩ : ∃ first : ℚ, ∀ d ∈ pre ++ [c], first ≤ d.now := by
      cases hlist : pre ++ [c] with
      | nil => exact ⟨0, fun d hd => absurd hd List.not_mem_nil⟩
      | cons e rest =>
        rw [hlist] at hprefix
        refine ⟨e.now, fun d hd => ?_⟩
        rcases List.mem_cons.mp hd with rfl | hd
        · exact le_rfl
        · exact (List.pairwise_cons.mp hprefix).1 d hd
    obtain ⟨s', hs', hfree⟩ := free_calls hban (free_empty first) hprefix hfirst
    rw [run_append]
    exact granted_after_wait hban hrate hfree hs' hle hrefused

theorem one_nonneg : (0 : ℚ) ≤ 1 := by norm_num

def oneToken : Config := ⟨1, 1, 0, one_nonneg, one_nonneg⟩

/-- Two requests at once of a bucket of one token, and a third one after a second. -/
theorem token_bucket_single :
    grantedWithin oneToken (fun _ => none) [⟨"a", 1, 0⟩, ⟨"a", 1, 0⟩, ⟨"a", 1, 1⟩] "a" 0 1 ≤
      oneToken.capacity + oneToken.refillRate * 1 :=
  (token_bucket oneToken [⟨"a", 1, 0⟩, ⟨"a", 1, 0⟩, ⟨"a", 1, 1⟩] (by simp) (by simp [Ordered])).1 "a" 0 1
    (by norm_num)

end Smara.Limiter.Bucket
