import Mathlib.Data.Nat.Size
import Mathlib.Tactic.Positivity
import Reninja.Graph.Basic

/-!
# Buffer pools

`bytebufferpool`: pools of byte slices whose capacities are powers of two. Of a slice only its
length and capacity are kept. Memory is taken to be large enough for every slice that Go lets a
program ask for.
-/

namespace Reninja

variable {max : Int}

/-- The length and capacity of a `[]byte`. -/
structure Slice where
  len : Nat
  cap : Nat
  len_le : len ≤ cap
  cap_lt : cap < 2 ^ 63

def Slice.make (size : Int) : Except GoString Slice :=
  if h : 0 ≤ size ∧ size < 2 ^ 63 then
    .ok ⟨size.toNat, size.toNat, le_rfl, by omega⟩
  else
    .error "runtime error: makeslice: len out of range"

def Slice.upTo (buf : Slice) (length : Int) : Except GoString Slice :=
  if h : 0 ≤ length ∧ length ≤ buf.cap then
    .ok ⟨length.toNat, buf.cap, by omega, buf.cap_lt⟩
  else
    .error "runtime error: slice bounds out of range"

def len64 (x : Int) : Nat := (x % 2 ^ 64).toNat.size

/-! ### The pools -/

/-- `fixedSizePool`: what its `sync.Pool` was given and the size of the buffers it makes. -/
structure FixedSizePool where
  size : Int
  held : List Slice := []

/-- `Get`. The pool is free to return any of its buffers or to make a new one; it never returns a
buffer that it has lost. -/
def FixedSizePool.get (p : FixedSizePool) (choice : Nat) : Except GoString Slice × FixedSizePool :=
  match p.held[choice]? with
  | some buf => (.ok buf, { p with held := p.held.eraseIdx choice })
  | none => (Slice.make p.size, p)

def FixedSizePool.put (p : FixedSizePool) (buf : Slice) : FixedSizePool :=
  { p with held := buf :: p.held }

structure VariableSizePool where
  pools : List FixedSizePool

/-- The loop of `VariableSize` from some size on. The size is an `int`, so doubling it may wrap
around. -/
def newPools : Nat → Int → Int → Option (List FixedSizePool)
  | 0, _, _ => none
  | fuel + 1, size, maxBufferSize =>
    if size ≥ maxBufferSize then some [{ size }]
    else (newPools fuel ((size * 2).bmod (2 ^ 64)) maxBufferSize).map ({ size } :: ·)

def variableSize (fuel : Nat) (maxBufferSize : Int) : Option VariableSizePool :=
  (newPools fuel 1 maxBufferSize).map VariableSizePool.mk

namespace VariableSizePool

variable (bp : VariableSizePool)

/-- The index of a pool, at most that of the last one. -/
def clamp (idx : Nat) : Nat := if idx ≥ bp.pools.length then bp.pools.length - 1 else idx

def get (length : Int) (choice : Nat) : Except GoString Slice × VariableSizePool :=
  let idx := bp.clamp (if length = 0 then 0 else len64 (length - 1))
  match bp.pools[idx]? with
  | none   => (.error "runtime error: index out of range", bp)
  | some p =>
    let (buf, p) := p.get choice
    (buf.bind fun buf => buf.upTo (min length buf.cap), ⟨bp.pools.set idx p⟩)

/-- `Put`; a buffer without capacity is dropped. -/
def put (buf : Slice) : VariableSizePool :=
  match len64 buf.cap with
  | 0 => bp
  | idx + 1 => ⟨bp.pools.modify (bp.clamp idx) fun p => p.put buf⟩

/-- A call to a pool, with the choice that the pool makes. -/
inductive Call where
  | get (length : Int) (choice : Nat)
  | put (buf : Slice)

/-- The pool after a call. A `Get` that panics has still taken its buffer. -/
def next : Call → VariableSizePool
  | .get length choice => (bp.get length choice).2
  | .put buf => bp.put buf

end VariableSizePool

/-! ### Powers of two -/

lemma len64_of_lt {x : Int} (h₀ : 0 ≤ x) (h : x < 2 ^ 64) : len64 x = x.toNat.size := by
  rw [len64, Int.emod_eq_of_lt h₀ h]

/-- A pool of buffers with at least a power of two of capacity. -/
structure FixedSizePool.Holds (p : FixedSizePool) (i : Nat) : Prop where
  size : p.size = 2 ^ i
  bound : i < 63
  held : ∀ buf ∈ p.held, 2 ^ i ≤ buf.cap

/-- The pools hold buffers of their sizes, and the last ones are large enough. -/
structure VariableSizePool.Good (max : Int) (bp : VariableSizePool) : Prop where
  nonempty : bp.pools ≠ []
  large : max ≤ 2 ^ (bp.pools.length - 1)
  holds : ∀ (i : Nat) (p : FixedSizePool), bp.pools[i]? = some p → p.Holds i

/-- A size that has wrapped around stays below the maximum for ever. -/
lemma newPools_wrapped (hmax : 1 ≤ max) (fuel : Nat) :
    newPools fuel 0 max = none ∧ newPools fuel (-2 ^ 63) max = none := by
  induction fuel with
  | zero => exact ⟨rfl, rfl⟩
  | succ fuel ih =>
    have hzero : ¬ (0 : Int) ≥ max := by omega
    have hneg : ¬ (-2 ^ 63 : Int) ≥ max := by omega
    constructor
    · simpa [newPools, hzero] using ih.1
    · have hwrap : ((-2 ^ 63 : Int) * 2).bmod (2 ^ 64) = 0 := by decide
      rw [newPools, if_neg hneg, hwrap, ih.1]
      rfl

lemma double_bmod {k : Nat} (hk : k < 62) : ((2 ^ k : Int) * 2).bmod (2 ^ 64) = 2 ^ (k + 1) := by
  have hpow : (2 : Int) ^ (k + 1) ≤ 2 ^ 62 := pow_le_pow_right₀ (by norm_num) hk
  have hpos : (0 : Int) < 2 ^ (k + 1) := by positivity
  rw [← pow_succ, Int.bmod_eq_of_le_mul_two]
  · omega
  · omega

/-- The sizes are powers of two, up to the first one that is large enough. -/
lemma newPools_some (hmax : 1 ≤ max) {fuel k : Nat} (hk : k < 63) {ps : List FixedSizePool}
    (hnew : newPools fuel (2 ^ k) max = some ps) : ps ≠ [] ∧ max ≤ 2 ^ (k + (ps.length - 1)) ∧
      ∀ (i : Nat) (p : FixedSizePool), ps[i]? = some p → p.Holds (k + i) := by
  induction fuel generalizing k ps with
  | zero => cases hnew
  | succ fuel ih =>
    have hfirst : FixedSizePool.Holds { size := 2 ^ k } k := ⟨rfl, hk, by simp⟩
    rw [newPools] at hnew
    split at hnew
    · rename_i hlast
      obtain rfl := Option.some.inj hnew
      refine ⟨by simp, by simpa using hlast, ?_⟩
      rintro (_ | i) p hp
      · obtain rfl := Option.some.inj hp
        exact hfirst
      · simp at hp
    · obtain ⟨rest, hrest, rfl⟩ := Option.map_eq_some_iff.mp hnew
      have hk' : k < 62 := by
        by_contra hge
        obtain rfl : k = 62 := by omega
        have hwrap : ((2 ^ 62 : Int) * 2).bmod (2 ^ 64) = -2 ^ 63 := by decide
        rw [hwrap, (newPools_wrapped hmax fuel).2] at hrest
        cases hrest
      rw [double_bmod hk'] at hrest
      obtain ⟨hne, hlarge, hholds⟩ := ih (by omega) hrest
      have hlen : 0 < rest.length := List.length_pos_iff.mpr hne
      refine ⟨by simp, ?_, ?_⟩
      · rw [List.length_cons, show k + (rest.length + 1 - 1) = k + 1 + (rest.length - 1) by omega]
        exact hlarge
      · rintro (_ | i) p hp
        · obtain rfl := Option.some.inj hp
          exact hfirst
        · rw [List.getElem?_cons_succ] at hp
          rw [show k + (i + 1) = k + 1 + i by omega]
          exact hholds i p hp

lemma variableSize_good (hmax : 1 ≤ max) {fuel : Nat} {bp : VariableSizePool}
    (hnew : variableSize fuel max = some bp) : bp.Good max := by
  obtain ⟨ps, hps, rfl⟩ := Option.map_eq_some_iff.mp hnew
  obtain ⟨hne, hlarge, hholds⟩ := newPools_some hmax (k := 0) (by omega) hps
  refine ⟨hne, by simpa using hlarge, fun i p hp => ?_⟩
  simpa using hholds i p hp

lemma newPools_isSome {n k : Nat} (hk : k + n = 62) (hmax : max ≤ 2 ^ 62) :
    (newPools (n + 1) (2 ^ k) max).isSome := by
  induction n generalizing k with
  | zero =>
    obtain rfl : k = 62 := by omega
    rw [newPools, if_pos hmax]
    rfl
  | succ n ih =>
    rw [newPools]
    split
    · rfl
    · rw [double_bmod (by omega), Option.isSome_map]
      exact ih (by omega)

namespace VariableSizePool.Good

variable {max : Int} {bp : VariableSizePool} (h : bp.Good max)
include h

lemma clamp_lt (idx : Nat) : bp.clamp idx < bp.pools.length := by
  have hlen : 0 < bp.pools.length := List.length_pos_iff.mpr h.nonempty
  rw [clamp]
  split <;> omega

lemma modify {i : Nat} {f : FixedSizePool → FixedSizePool}
    (hf : ∀ p, bp.pools[i]? = some p → (f p).Holds i) : Good max ⟨bp.pools.modify i f⟩ where
  nonempty := by simpa using h.nonempty
  large := by simpa using h.large
  holds j p hp := by
    rw [List.getElem?_modify] at hp
    obtain ⟨q, hq, rfl⟩ := Option.map_eq_some_iff.mp hp
    by_cases hij : i = j
    · subst hij
      simpa using hf q hq
    · simpa [hij] using h.holds j q hq

lemma put (buf : Slice) : Good max (bp.put buf) := by
  rw [VariableSizePool.put]
  split
  · exact h
  · rename_i idx hidx
    refine h.modify fun p hp => ?_
    obtain ⟨hsize, hbound, hheld⟩ := h.holds _ p hp
    refine ⟨hsize, hbound, fun b hb => ?_⟩
    have hcap := buf.cap_lt
    rw [len64_of_lt (by omega) (by omega), Int.toNat_natCast] at hidx
    have hidx' : 2 ^ idx ≤ buf.cap := Nat.lt_size.mp (by omega)
    have hclamp : bp.clamp idx ≤ idx := by
      rw [clamp]
      split <;> omega
    rcases List.mem_cons.mp hb with rfl | hb
    · exact (Nat.pow_le_pow_right Nat.two_pos hclamp).trans hidx'
    · exact hheld b hb

end VariableSizePool.Good

lemma FixedSizePool.get_holds {p : FixedSizePool} {i : Nat} (h : p.Holds i) (choice : Nat) :
    (p.get choice).2.Holds i ∧ ∃ buf, (p.get choice).1 = .ok buf ∧ 2 ^ i ≤ buf.cap := by
  rw [FixedSizePool.get]
  split
  · rename_i buf hbuf
    refine ⟨⟨h.size, h.bound, fun b hb => h.held b ?_⟩, buf, rfl, h.held buf ?_⟩
    · exact List.mem_of_mem_eraseIdx hb
    · exact List.mem_of_getElem? hbuf
  · have hpow : (2 : Int) ^ i < 2 ^ 63 := pow_lt_pow_right₀ (by norm_num) h.bound
    have hpos : (0 : Int) ≤ 2 ^ i := by positivity
    refine ⟨h, ⟨p.size.toNat, p.size.toNat, le_rfl, ?_⟩, ?_, ?_⟩
    · rw [h.size]
      omega
    · rw [Slice.make, dif_pos (by rw [h.size]; exact ⟨hpos, hpow⟩)]
    · have hcap : (p.size.toNat : Int) = 2 ^ i := by rw [h.size, Int.toNat_of_nonneg hpos]
      exact_mod_cast hcap.ge

namespace VariableSizePool.Good

variable {max : Int} {bp : VariableSizePool} (h : bp.Good max)
include h

lemma get_eq (length : Int) (choice : Nat) :
    ∃ (i : Nat) (p : FixedSizePool) (buf : Slice),
      i = bp.clamp (if length = 0 then 0 else len64 (length - 1)) ∧ 2 ^ i ≤ buf.cap ∧
      p.Holds i ∧ bp.get length choice = (buf.upTo (min length buf.cap), ⟨bp.pools.set i p⟩) := by
  have hlt := h.clamp_lt (if length = 0 then 0 else len64 (length - 1))
  obtain ⟨hholds, buf, hbuf, hcap⟩ :=
    FixedSizePool.get_holds (h.holds _ _ (List.getElem?_eq_getElem hlt)) choice
  refine ⟨_, _, buf, rfl, hcap, hholds, ?_⟩
  simp only [VariableSizePool.get, List.getElem?_eq_getElem hlt, hbuf]
  rfl

lemma next (c : Call) : Good max (bp.next c) := by
  cases c with
  | put buf => exact h.put buf
  | get length choice =>
    obtain ⟨i, p, buf, -, -, hp, hget⟩ := h.get_eq length choice
    rw [VariableSizePool.next, hget, List.set_eq_modify]
    exact h.modify fun _ _ => hp

lemma run (calls : List Call) : Good max (calls.foldl VariableSizePool.next bp) := by
  induction calls generalizing bp with
  | nil => exact h
  | cons c calls ih => exact ih (h.next c)

/-- A length that the pool was made for gets a pool with large enough buffers. -/
lemma length_le {length : Int} (h₀ : 0 ≤ length) (hlength : length ≤ max) :
    length ≤ 2 ^ bp.clamp (if length = 0 then 0 else len64 (length - 1)) := by
  by_cases hzero : length = 0
  · subst hzero
    positivity
  · rw [if_neg hzero, clamp]
    split
    · exact hlength.trans h.large
    · rename_i hidx
      have hlast : bp.pools.length - 1 < 63 := by
        have hlt : bp.pools.length - 1 < bp.pools.length := by omega
        exact (h.holds _ _ (List.getElem?_eq_getElem hlt)).bound
      have hpow : (2 : Int) ^ (bp.pools.length - 1) < 2 ^ 63 :=
        pow_lt_pow_right₀ (by norm_num) hlast
      have hlarge := h.large
      rw [len64_of_lt (by omega) (by omega)]
      have hsize := Nat.lt_size_self (length - 1).toNat
      have hcast : (((length - 1).toNat : Nat) : Int) < 2 ^ (length - 1).toNat.size := by
        exact_mod_cast hsize
      omega

lemma get_len {length : Int} (h₀ : 0 ≤ length) (hlength : length ≤ max) (choice : Nat) :
    ∃ buf, (bp.get length choice).1 = .ok buf ∧ (buf.len : Int) = length := by
  obtain ⟨i, p, buf, rfl, hcap, -, hget⟩ := h.get_eq length choice
  have hle : length ≤ buf.cap := (h.length_le h₀ hlength).trans (by exact_mod_cast hcap)
  rw [hget, min_eq_left hle, Slice.upTo, dif_pos ⟨h₀, hle⟩]
  exact ⟨_, rfl, Int.toNat_of_nonneg h₀⟩

end VariableSizePool.Good

/-- A pool for buffers of up to some size returns slices of exactly the requested length, whatever
it was given before. `VariableSize` itself returns as long as a power of two that is large enough
fits an `int`. -/
theorem VariableSizePool.get_length (max : Int) (hmax : 1 ≤ max) :
    (max ≤ 2 ^ 62 → ∃ fuel bp, variableSize fuel max = some bp) ∧
      ∀ (fuel : Nat) (bp : VariableSizePool), variableSize fuel max = some bp →
        ∀ (calls : List Call) (n : Int) (choice : Nat), 0 ≤ n → n ≤ max →
          ∃ buf, ((calls.foldl VariableSizePool.next bp).get n choice).1 = .ok buf ∧
            (buf.len : Int) = n := by
  refine ⟨fun hle => ?_, fun fuel bp hnew calls n choice h₀ hn => ?_⟩
  · obtain ⟨ps, hps⟩ := Option.isSome_iff_exists.mp (newPools_isSome (n := 62) (k := 0) rfl hle)
    exact ⟨63, ⟨ps⟩, by rw [variableSize, show (1 : Int) = 2 ^ 0 from rfl, hps]; rfl⟩
  · exact ((variableSize_good hmax hnew).run calls).get_len h₀ hn choice

/-- A pool for a thousand bytes that is given a buffer of three. -/
theorem VariableSizePool.get_length_three :
    let calls : List Call := [.put ⟨0, 3, by decide, by decide⟩]
    ∃ bp, variableSize 11 1000 = some bp ∧
      ∃ buf, ((calls.foldl VariableSizePool.next bp).get 3 0).1 = .ok buf ∧
        (buf.len : Int) = 3 := by
  intro calls
  have hnew : (variableSize 11 1000).isSome := by decide
  obtain ⟨bp, hbp⟩ := Option.isSome_iff_exists.mp hnew
  exact ⟨bp, hbp, (VariableSizePool.get_length 1000 (by decide)).2 11 bp hbp calls 3 0
    (by decide) (by decide)⟩

end Reninja
