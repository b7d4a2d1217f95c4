import VirtualPeople.Proofs.Hash.Jump
import VirtualPeople.Proofs.Number.Exact

/-!
# The loop of jump hashing

The loop computes a jump in doubles and cuts it off to a word. Its quotient and its product round to
the same numbers as the exact ones do (`Jump.next_eq`, `Jump.Loop.isUnits_target`), at most to
`2 ^ 62`, so the cast never reaches an end of the words and the loop makes the jumps of the walk
(`Jump.Loop.exists_stop`). Each of them goes up (`Jump.lt_next`), because rounding does not take the
product below the bucket after the last one; so the loop stops, and in the bucket of the key
(`Jump.Loop.stops_in_bucket`).
-/

namespace VirtualPeople

open Format (double roundEven scaled)

namespace Jump

/-- Above the smallest doubles, a quotient rounded to 53 bits is the nearest double. -/
theorem rounded_eq {num den : Nat} (hnum : 0 < num) (hden : 0 < den)
    (h : den.log2 ≤ num.log2 + 1021) :
    ∃ e, IsPlace num den e ∧
      rounded num den = (roundEven (num * 2 ^ 1074) (den * 2 ^ e), (e : Int) - 1074) := by
  obtain ⟨e, hplace, he⟩ := Format.isPlace_place Format.double_proper hnum hden
  have hrounded : rounded num den =
      (roundEven (scaled num den (double.place num den)).1
        (scaled num den (double.place num den)).2, double.place num den) := by
    have hbits : double.bits = 53 := rfl
    have hlowest : double.lowest = -1074 := rfl
    have hmax : max (-1074) ((num.log2 : Int) - den.log2 - (53 : Nat)) =
        (num.log2 : Int) - den.log2 - 53 := by omega
    simp only [Format.place, hbits, hlowest, hmax, rounded]
    split_ifs <;> rfl
  refine ⟨e, isPlace_iff.2 he, ?_⟩
  rw [hrounded, hplace, Format.low_double]
  exact congrArg (·, (e : Int) - 1074) (roundEven_congr (scaled_pos hden _) he.scale_pos
    (Format.scaled_mul 1074 num den e _ rfl))

theorem wholePart_eq (m e : Nat) : ∀ {q : Int}, q = e - 1074 →
    wholePart (m, q) = m * 2 ^ e / 2 ^ 1074
  | .ofNat q, h => by
    obtain rfl : e = q + 1074 := by
      simp only [Int.ofNat_eq_natCast] at h
      omega
    rw [pow_add, ← Nat.mul_assoc, Nat.mul_div_cancel _ (pow_pos Nat.two_pos 1074), wholePart,
      Nat.shiftLeft_eq]
  | .negSucc q, h => by
    have hpow : 2 ^ 1074 = 2 ^ (q + 1) * 2 ^ e := by
      rw [← pow_add]
      congr 1
      omega
    rw [hpow, Nat.mul_div_mul_right _ _ (Nat.two_pow_pos e), wholePart,
      Nat.shiftRight_eq_div_pow]

/-- So its whole part is that of the nearest double. -/
theorem wholePart_rounded {num den : Nat} (hnum : 0 < num) (hden : 0 < den)
    (h : den.log2 ≤ num.log2 + 1021) (hlt : double.nearest num den < double.infinity) :
    wholePart (rounded num den) = units (double.nearest num den) / 2 ^ 1074 := by
  obtain ⟨e, hplace, hrounded⟩ := rounded_eq hnum hden h
  rw [hrounded, wholePart_eq _ e rfl, units_nearest hplace hlt]

/-- The rank of `2 ^ 31` divided by the divisor of a key. -/
def factor (key : UInt64) : Nat := double.nearest (2 ^ 31) ((key >>> 33).toNat + 1)

/-- The rank of the product of that with the bucket after `bucket`. -/
def product (bucket : Nat) (key : UInt64) : Nat :=
  double.nearest ((bucket + 1) * 2 ^ 1074 * units (factor key)) (2 ^ 2148)

theorem divisor_le (key : UInt64) : (key >>> 33).toNat + 1 ≤ 2 ^ 31 := by
  have hkey := key.toNat_lt
  simp only [UInt64.toNat_shiftRight, UInt64.reduceToNat, Nat.shiftRight_eq_div_pow, Nat.reduceMod]
  omega

theorem factor_le (key : UInt64) :
    factor key < double.infinity ∧ units (factor key) ≤ 2 ^ 31 * 2 ^ 1074 :=
  nearest_le_pow (Nat.succ_pos _) (by decide) (Nat.le_mul_of_pos_right _ (Nat.succ_pos _))

/-- The divisor is at most `2 ^ 31`. -/
theorem one_le_factor (key : UInt64) : rankOf 1.0 ≤ factor key := by
  refine le_nearest (Nat.succ_pos _) (by decide) ?_
  rw [units_one, Nat.mul_comm]
  exact Nat.mul_le_mul_right _ (divisor_le key)

theorem product_le {bucket : Nat} (h : bucket < 2 ^ 31) (key : UInt64) :
    product bucket key < double.infinity ∧ units (product bucket key) ≤ 2 ^ 62 * 2 ^ 1074 := by
  refine nearest_le_pow (pow_pos Nat.two_pos 2148) (by decide) ?_
  calc (bucket + 1) * 2 ^ 1074 * units (factor key)
      ≤ 2 ^ 31 * 2 ^ 1074 * (2 ^ 31 * 2 ^ 1074) :=
        Nat.mul_le_mul (Nat.mul_le_mul_right _ h) (factor_le key).2
    _ = 2 ^ 62 * 2 ^ 2148 := by rw [← pow_add, ← pow_add, ← pow_add]

/-- The factor keeps its 53 bits, some of them behind the point. -/
theorem exists_factor (key : UInt64) : ∃ m k, k < 53 ∧
    rounded (1 <<< 31) ((key >>> 33).toNat + 1) = (m, .negSucc k) ∧
    m * 2 ^ 1074 = units (factor key) * 2 ^ (k + 1) := by
  have hpos : 0 < (key >>> 33).toNat + 1 := Nat.succ_pos _
  have hdivisor := divisor_le key
  have hlog : ((key >>> 33).toNat + 1).log2 < 32 :=
    (Nat.log2_lt hpos.ne').2 (hdivisor.trans_lt (by decide))
  have hshift : 1 <<< 31 = 2 ^ 31 := rfl
  obtain ⟨e, hplace, hrounded⟩ := rounded_eq (by decide : 0 < 2 ^ 31) hpos (by omega)
  have hlow : 1074 < e + 53 := by
    by_contra hle
    have hpow : 2 ^ (e + 53) ≤ 2 ^ 1074 := pow_le_pow_right₀ one_le_two (by omega)
    have hlt := hplace.lt.trans_le (Nat.mul_le_mul hdivisor hpow)
    exact Nat.lt_irrefl _ hlt
  have hhigh : e + 52 ≤ 31 + 1074 := by
    by_contra hlt
    have hpow : 2 ^ (31 + 1074) < 2 ^ (e + 52) := pow_lt_pow_right₀ one_lt_two (by omega)
    have hle := (Nat.le_mul_of_pos_left _ hpos).trans (hplace.full.resolve_left (by omega))
    rw [← pow_add] at hle
    exact hle.not_gt hpow
  have hunits : units (factor key) = _ := units_nearest hplace (factor_le key).1
  generalize roundEven (2 ^ 31 * 2 ^ 1074) (((key >>> 33).toNat + 1) * 2 ^ e) = m at hrounded hunits
  refine ⟨m, 1073 - e, by omega, ?_, ?_⟩
  · rw [hshift, hrounded]
    exact congrArg _ (by omega)
  · have hplaces : e + (1073 - e + 1) = 1074 := by omega
    rw [hunits, Nat.mul_assoc, ← pow_add, hplaces]

/-- A jump goes as far as the whole part of the product. -/
theorem next_eq {bucket : Nat} (h : bucket < 2 ^ 31) (key : UInt64) :
    next bucket key = units (product bucket key) / 2 ^ 1074 := by
  obtain ⟨m, k, hk, hrounded, hm⟩ := exists_factor key
  have hden : 0 < 2 ^ (k + 1) := Nat.two_pow_pos _
  have hmpos : 0 < m := by
    have hunits : 0 < units (factor key) :=
      units_pos (lt_of_lt_of_le (by decide) (one_le_factor key))
    refine Nat.pos_of_ne_zero fun hzero => ?_
    rw [hzero, Nat.zero_mul] at hm
    exact (Nat.mul_pos hunits hden).ne hm
  have hproduct : double.nearest ((bucket + 1) * m) (2 ^ (k + 1)) = product bucket key := by
    refine Format.nearest_congr Format.double_proper hden (pow_pos Nat.two_pos 2148) ?_
    calc (bucket + 1) * m * 2 ^ 2148 = (bucket + 1) * 2 ^ 1074 * (m * 2 ^ 1074) := by
          rw [show 2148 = 1074 + 1074 from rfl, pow_add]
          exact Nat.mul_mul_mul_comm _ _ _ _ |>.symm
      _ = (bucket + 1) * 2 ^ 1074 * units (factor key) * 2 ^ (k + 1) := by
          rw [hm, ← Nat.mul_assoc]
  unfold next
  simp only [hrounded]
  rw [Nat.shiftLeft_eq, Nat.one_mul,
    wholePart_rounded (Nat.mul_pos (Nat.succ_pos bucket) hmpos) hden ?_ ?_, hproduct]
  · rw [Nat.log2_two_pow]
    omega
  · rw [hproduct]
    exact (product_le h key).1

end Jump

/-- The double nearest to a word. This cast and the one back are taken from the model of doubles,
for the compiled ones have no definition. -/
def toDouble (i : Int64) : Float := .ofModel (.ofInt64 i)

/-- The whole part of a double, and the end of the words on its side if it is beyond them; zero if
it is no number. -/
def toWord (x : Float) : Int64 := x.toModel.toInt64

theorem isUnits_toDouble {i : Int64} {n : Nat} (hi : i.toInt = n) (hn : n < 2 ^ 53) :
    IsUnits (toDouble i) (n * 2 ^ 1074) := by
  have hmodel : (toDouble i).toModel = .pack (.ofNat .binary64 n) :=
    congrArg (fun j => Float.Model.pack (.ofInt .binary64 j)) hi
  have hinf : double.infinity = 2047 * 2 ^ 52 := rfl
  have hle := nearest_le_infinity n Nat.one_pos
  obtain ⟨hsign, hrank⟩ := sign_and_rank hmodel (Rank.packs_ofNat n) (by omega)
  exact isUnits_of_nearest hn hsign hrank

theorem IsUnits.toInt_toWord {x : Float} {u : Nat} (h : IsUnits x u) (hlt : u / 2 ^ 1074 < 2 ^ 63) :
    (toWord x).toInt = (u / 2 ^ 1074 : Nat) := by
  have hcut := Rank.toInt_reads (reads_double x) h.rank_lt h.sign Int64.minValue.toInt
    Int64.maxValue.toInt
  rw [h.units_eq] at hcut
  have hmin : Int64.minValue.toInt = -2 ^ 63 := rfl
  have hmax : Int64.maxValue.toInt = 2 ^ 63 - 1 := rfl
  have hword : toWord x = .ofIntClamp (u / 2 ^ 1074 : Nat) := congrArg Int64.ofIntClamp hcut
  rw [hword]
  exact Int64.toInt_ofIntClamp (by omega) (by omega)

namespace Jump

/-- The variables of the loop that looks for a bucket: the last bucket that was low enough, the next
one, and the state of the key. -/
structure Loop where
  bucket : Int64
  next : Int64
  key : UInt64

namespace Loop

def start (key : UInt64) : Loop := ⟨-1, 0, key⟩

/-- Whether there is an iteration among `count` buckets. -/
def Runs (count : Int32) (s : Loop) : Prop := s.next < count.toInt64

/-- How far a jump goes, before the fraction is cut off. -/
def target (s : Loop) : Float :=
  toDouble (s.next + 1) *
    (((1 : UInt64) <<< 31).toFloat / ((advance s.key >>> 33) + 1).toFloat)

def step (s : Loop) : Loop := ⟨s.next, toWord s.target, advance s.key⟩

/-- Nothing overflows in an iteration, and it goes up. -/
structure Sound (s : Loop) : Prop where
  successor : (s.next + 1).toInt = s.next.toInt + 1
  divisor : ((advance s.key >>> 33) + 1).toNat = (advance s.key >>> 33).toNat + 1
  isFinite : isFinite s.target
  cast : s.step.next.toInt = ⌊valueOf s.target⌋
  up : s.next < s.step.next
  bounded : s.step.next.toInt ≤ 2 ^ 62

theorem toInt_successor {i : Int64} {n : Nat} (hi : i.toInt = n) (hn : n < 2 ^ 31) :
    (i + 1).toInt = (n + 1 : Nat) := by
  rw [Int64.toInt_add, hi, show (1 : Int64).toInt = 1 from rfl, Int.bmod_eq_of_le] <;> omega

theorem toNat_divisor (key : UInt64) : ((key >>> 33) + 1).toNat = (key >>> 33).toNat + 1 := by
  have hle := divisor_le key
  rw [UInt64.toNat_add, UInt64.toNat_one, Nat.mod_eq_of_lt (by omega)]

theorem isUnits_factor (key : UInt64) :
    IsUnits (((1 : UInt64) <<< 31).toFloat / ((key >>> 33) + 1).toFloat) (units (factor key)) := by
  have hdivisor := divisor_le key
  have hnum : IsUnits ((1 : UInt64) <<< 31).toFloat (2 ^ 31 * 2 ^ 1074) :=
    isUnits_toFloat (by decide) (by decide)
  have hden : IsUnits ((key >>> 33) + 1).toFloat (((key >>> 33).toNat + 1) * 2 ^ 1074) :=
    isUnits_toFloat (toNat_divisor key) (by omega)
  have hpos : 0 < ((key >>> 33).toNat + 1) * 2 ^ 1074 :=
    Nat.mul_pos (Nat.succ_pos _) (pow_pos Nat.two_pos 1074)
  have hfactor : double.nearest (2 ^ 31 * 2 ^ 1074) (((key >>> 33).toNat + 1) * 2 ^ 1074) =
      factor key := by
    refine Format.nearest_congr Format.double_proper hpos (Nat.succ_pos _) ?_
    rw [Nat.mul_assoc, Nat.mul_comm (2 ^ 1074)]
  have hdiv := hnum.div_nearest hden hpos
  rw [hfactor] at hdiv
  exact hdiv (factor_le key).1

/-- The floating-point product is the exact one, rounded. -/
theorem isUnits_target {s : Loop} {b : Nat} (hnext : s.next.toInt = b) (hb : b < 2 ^ 31) :
    IsUnits s.target (units (product b (advance s.key))) := by
  have hsuccessor : IsUnits (toDouble (s.next + 1)) ((b + 1) * 2 ^ 1074) :=
    isUnits_toDouble (toInt_successor hnext hb) (by omega)
  have hnormal : 2 ^ 52 ≤ units (factor (advance s.key)) := by
    have hone := units_mono (one_le_factor (advance s.key))
    rw [units_one] at hone
    exact (pow_le_pow_right₀ one_le_two (by decide)).trans hone
  exact hsuccessor.mul_nearest (isUnits_factor (advance s.key)) hnormal (product_le hb _).1

theorem whole_product_le {b : Nat} (hb : b < 2 ^ 31) (key : UInt64) :
    units (product b key) / 2 ^ 1074 ≤ 2 ^ 62 :=
  Nat.div_le_of_le_mul ((product_le hb key).2.trans_eq (Nat.mul_comm _ _))

/-- Cut off, it is the exact jump. -/
theorem toInt_step {s : Loop} {b : Nat} (hnext : s.next.toInt = b) (hb : b < 2 ^ 31) :
    s.step.next.toInt = Jump.next b (advance s.key) := by
  have hle := whole_product_le hb (advance s.key)
  rw [next_eq hb]
  exact (isUnits_target hnext hb).toInt_toWord (by omega)

theorem sound {s : Loop} {b : Nat} (hnext : s.next.toInt = b) (hb : b < 2 ^ 31) : s.Sound := by
  have htarget := isUnits_target hnext hb
  have hstep := toInt_step hnext hb
  have hle := whole_product_le hb (advance s.key)
  have hup : b < Jump.next b (advance s.key) := lt_next (by omega) _
  constructor
  · rw [toInt_successor hnext hb, hnext]
    rfl
  · exact toNat_divisor _
  · exact htarget.isFinite
  · rw [hstep, next_eq hb, htarget.floor_valueOf]
  · rw [Int64.lt_iff_toInt_lt, hstep, hnext]
    exact Int.ofNat_lt.2 hup
  · rw [hstep, next_eq hb]
    exact_mod_cast hle

theorem runs_iff {count : Int32} {s : Loop} {n b : Nat} (hcount : count.toInt = n)
    (hnext : s.next.toInt = b) : s.Runs count ↔ b < n := by
  rw [Runs, Int64.lt_iff_toInt_lt, Int32.toInt_toInt64, hcount, hnext]
  exact Int.ofNat_lt

/-- From an iteration on, the loop makes the jumps of the walk and ends in its bucket. -/
theorem exists_stop {count : Int32} {n : Nat} (hcount : count.toInt = n) :
    ∀ {fuel : Nat} {s : Loop} {b : Nat}, s.next.toInt = b → b < n → n ≤ fuel + b →
      ∃ k, k + b ≤ n ∧ (∀ i < k, (step^[i] s).Runs count ∧ (step^[i] s).Sound) ∧
        ¬ (step^[k] s).Runs count ∧ (step^[k] s).bucket.toInt = walk n fuel b s.key
  | 0, _, _, _, hlt, hfuel => by omega
  | fuel + 1, s, b, hnext, hlt, hfuel => by
    have hn : n < 2 ^ 31 := by
      have hle := count.toInt_lt
      omega
    have hb : b < 2 ^ 31 := hlt.trans hn
    have hruns : s.Runs count := (runs_iff hcount hnext).2 hlt
    have hstep := toInt_step hnext hb
    have hup : b < Jump.next b (advance s.key) := lt_next (by omega) _
    rw [walk]
    split_ifs with hfurther
    · have hrest : n ≤ fuel + Jump.next b (advance s.key) := by omega
      obtain ⟨k, hk, hsound, hstop, hbucket⟩ := exists_stop hcount hstep hfurther hrest
      refine ⟨k + 1, by omega, fun i hi => ?_, hstop, hbucket⟩
      rcases i with _ | i
      · exact ⟨hruns, sound hnext hb⟩
      · exact hsound i (by omega)
    · refine ⟨1, by omega, fun i hi => ?_, (runs_iff hcount hstep).not.2 hfurther, hnext⟩
      obtain rfl : i = 0 := by omega
      exact ⟨hruns, sound hnext hb⟩

theorem toInt_toInt32 {i : Int64} (hlow : -1 ≤ i.toInt) (hhigh : i.toInt < 2 ^ 31) :
    i.toInt32.toInt = i.toInt := by
  rw [Int64.toInt_toInt32, Int.bmod_eq_of_le] <;> omega

/-- The loop stops after at most as many iterations as there are buckets. Until then nothing
overflows and every iteration goes up; then it has the bucket of the key. -/
theorem stops_in_bucket (key : UInt64) (count : Int32) : ∃ n ≤ count.toInt.toNat,
    (∀ i < n, (step^[i] (start key)).Runs count ∧ (step^[i] (start key)).Sound) ∧
      ¬ (step^[n] (start key)).Runs count ∧
      (step^[n] (start key)).bucket.toInt32.toInt = (step^[n] (start key)).bucket.toInt ∧
      (step^[n] (start key)).bucket.toInt32.toInt = jumpHash key count.toInt ∧
      (jumpHash key count.toInt = -1 ↔ count ≤ 0) := by
  have hnone : count ≤ 0 ↔ count.toInt ≤ 0 := Int32.le_iff_toInt_le
  rw [hnone]
  rcases Int.lt_or_le 0 count.toInt with hpos | hneg
  · obtain ⟨n, hcount⟩ := Int.eq_ofNat_of_zero_le hpos.le
    have hn : n < 2 ^ 31 := by
      have hlt := count.toInt_lt
      omega
    have hstart : (start key).next.toInt = (0 : Nat) := rfl
    obtain ⟨k, hk, hsound, hstop, hend⟩ :=
      exists_stop hcount hstart (by omega) (Nat.le_add_right n 0)
    have hbucket : (step^[k] (start key)).bucket.toInt = walk n n 0 key := hend
    have hwalk : walk n n 0 key < n := walk_lt (by omega)
    have hjump : jumpHash key n = walk n n 0 key := jumpHash_eq_walk (by omega) key
    have hcast : (step^[k] (start key)).bucket.toInt32.toInt = walk n n 0 key :=
      (toInt_toInt32 (by rw [hbucket]; omega) (by rw [hbucket]; omega)).trans hbucket
    rw [hcount, hjump]
    refine ⟨k, hk, hsound, hstop, hcast.trans hbucket.symm, hcast, ?_⟩
    omega
  · refine ⟨0, Nat.zero_le _, fun i hi => absurd hi (Nat.not_lt_zero i), ?_, rfl, ?_, ?_⟩
    · rw [Runs, Int64.lt_iff_toInt_lt, Int32.toInt_toInt64]
      exact Int.not_lt.2 hneg
    · rw [jumpHash, if_pos hneg]
      rfl
    · rw [jumpHash, if_pos hneg]
      exact iff_of_true rfl hneg

end Loop

end Jump

end VirtualPeople
