import Mathlib.Data.List.Basic

/-!
# Readers

A reader gives some of its bytes at a time, at most as many as it is asked for, and says whether it
has come to its end. It may do so with the last bytes or behind them, and it may give no bytes at
all for some time.
-/

namespace Readers

open List

inductive Status (ε : Type*) where
  | ok
  | eof
  | unexpectedEOF
  | error (e : ε)
  deriving DecidableEq

variable {ρ ε : Type*}

/-- What one call returns, and the state of the reader behind it. -/
structure Got (ρ ε : Type*) where
  data : List UInt8
  status : Status ε
  rest : ρ

/-- `Read` of a reader, for a number of bytes. -/
abbrev Read (ρ ε : Type*) := ρ → Nat → Got ρ ε

/-- The reader gives some content, however much it is asked for at a time, and then stays at its
end. -/
inductive Yields (read : Read ρ ε) : ρ → List UInt8 → Prop
  | ended {s : ρ} (h : ∀ k, 0 < k → read s k = ⟨[], .eof, s⟩) : Yields read s []
  | more {s : ρ} {content : List UInt8}
      (hread : ∀ k, 0 < k → (read s k).data.length ≤ k ∧ (read s k).data <+: content ∧
        ((read s k).status = .ok ∨ (read s k).status = .eof ∧ (read s k).data = content))
      (hnext : ∀ k, 0 < k →
        Yields read (read s k).rest (content.drop (read s k).data.length)) : Yields read s content

/-- The loop of `io.ReadFull`: read until there are enough bytes or the reader says something. -/
def readLoop (read : Read ρ ε) : Nat → ρ → Nat → Option (Got ρ ε)
  | 0, _, _ => none
  | fuel + 1, s, k =>
    if k = 0 then
      some ⟨[], .ok, s⟩
    else
      let got := read s k
      match got.status with
      | .ok => (readLoop read fuel got.rest (k - got.data.length)).map fun g =>
          { g with data := got.data ++ g.data }
      | _ => some got

/-- `io.ReadFull`. -/
def readFull (read : Read ρ ε) (fuel : Nat) (s : ρ) (k : Nat) : Option (Got ρ ε) :=
  (readLoop read fuel s k).map fun g =>
    if k ≤ g.data.length then { g with status := .ok }
    else match g.status with
      | .eof => if g.data ≠ [] then { g with status := .unexpectedEOF } else g
      | _ => g

section

variable {read : Read ρ ε} {s : ρ} {content : List UInt8}

/-- What `readLoop` returns when it has enough fuel: as many bytes as there are. -/
lemma Yields.readLoop (h : Yields read s content) (k : Nat) :
    ∃ g n, (∀ fuel, n ≤ fuel → Readers.readLoop read fuel s k = some g) ∧
      Yields read g.rest (content.drop k) ∧ g.data = content.take k ∧
      (k ≤ content.length ∨ g.status = .eof) := by
  induction h generalizing k with
  | @ended s h =>
    by_cases hk : k = 0
    · refine ⟨⟨[], .ok, s⟩, 1, fun fuel hfuel => ?_, by simpa using Yields.ended h, by simp,
        .inl (by simp [hk])⟩
      obtain ⟨fuel, rfl⟩ := Nat.exists_eq_add_of_le' hfuel
      rw [Readers.readLoop, if_pos hk]
    · refine ⟨⟨[], .eof, s⟩, 1, fun fuel hfuel => ?_, by simpa using Yields.ended h, by simp,
        .inr rfl⟩
      obtain ⟨fuel, rfl⟩ := Nat.exists_eq_add_of_le' hfuel
      simp [Readers.readLoop, hk, h k (by omega)]
  | @more s content hread hnext ih =>
    by_cases hk : k = 0
    · subst hk
      refine ⟨⟨[], .ok, s⟩, 1, fun fuel hfuel => ?_, by simpa using Yields.more hread hnext,
        by simp, .inl (by simp)⟩
      obtain ⟨fuel, rfl⟩ := Nat.exists_eq_add_of_le' hfuel
      rw [Readers.readLoop, if_pos rfl]
    have hpos : 0 < k := by omega
    have hnext := hnext k hpos
    obtain ⟨hlength, ⟨tail, htail⟩, hstatus⟩ := hread k hpos
    rcases hstatus with hok | ⟨heof, hdata⟩
    · obtain ⟨g, n, hg, hrest, hdata, hend⟩ := ih k hpos (k - (read s k).data.length)
      rw [← htail, drop_left] at hrest hdata hend
      refine ⟨{ g with data := (read s k).data ++ g.data }, n + 1, fun fuel hfuel => ?_, ?_, ?_, ?_⟩
      · obtain ⟨fuel, rfl⟩ := Nat.exists_eq_add_of_le' hfuel
        rw [← Nat.add_assoc, Readers.readLoop, if_neg hk]
        simp only [hok, hg (fuel + n) (Nat.le_add_left n fuel), Option.map_some]
      · rwa [← htail, drop_append, drop_eq_nil_of_le hlength, nil_append]
      · rw [← htail, take_append, take_of_length_le hlength, hdata]
      · rw [← htail, length_append]
        exact hend.imp_left fun hle => by omega
    · refine ⟨read s k, 1, fun fuel hfuel => ?_, ?_, ?_, .inr heof⟩
      · obtain ⟨fuel, rfl⟩ := Nat.exists_eq_add_of_le' hfuel
        rw [Readers.readLoop, if_neg hk]
        simp only [heof]
      · rw [hdata] at hlength
        rwa [hdata, drop_length, ← drop_eq_nil_of_le hlength] at hnext
      · rw [← hdata, take_of_length_le hlength]

/-- The buffer is filled with the first bytes of the content, or with all of them; only a reader at
its end says so. -/
theorem Yields.readFull (h : Yields read s content) (k : Nat) :
    ∃ g n, (∀ fuel, n ≤ fuel → Readers.readFull read fuel s k = some g) ∧
      Yields read g.rest (content.drop k) ∧ g.data = content.take k ∧
      g.status = if k ≤ content.length then .ok else
        if content = [] then .eof else .unexpectedEOF := by
  obtain ⟨g, n, hg, hrest, hdata, hend⟩ := h.readLoop k
  have hlength := congrArg length hdata
  rw [length_take] at hlength
  by_cases hfull : k ≤ content.length
  · refine ⟨{ g with status := .ok }, n, fun fuel hfuel => ?_, hrest, hdata, by rw [if_pos hfull]⟩
    rw [Readers.readFull, hg fuel hfuel, Option.map_some, if_pos (by omega)]
  have heof := hend.resolve_left hfull
  have hshort : ¬ k ≤ g.data.length := by omega
  rw [take_of_length_le (by omega)] at hdata
  by_cases hnil : content = []
  · refine ⟨g, n, fun fuel hfuel => ?_, hrest, ?_, ?_⟩
    · rw [Readers.readFull, hg fuel hfuel, Option.map_some, if_neg hshort]
      simp [heof, hdata, hnil]
    · rw [hdata, take_of_length_le (by omega)]
    · rw [if_neg hfull, if_pos hnil, heof]
  · refine ⟨{ g with status := .unexpectedEOF }, n, fun fuel hfuel => ?_, hrest, ?_, ?_⟩
    · rw [Readers.readFull, hg fuel hfuel, Option.map_some, if_neg hshort]
      simp [heof, hdata, hnil]
    · rw [hdata, take_of_length_le (by omega)]
    · rw [if_neg hfull, if_neg hnil]

end

end Readers
