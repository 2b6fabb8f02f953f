import Reninja.Build.Loop

/-!
# What an aborted build leaves on disk

`Cleanup` removes the outputs that the commands it aborts may have written in part. An output that
is still there afterwards has the time that the scan has seen, and its command has no depfile.
-/

namespace Reninja

open Program

section Disk

variable {S : Set Path} {d d' d'' : Disk} {p : Path} {P : TimeStamp → Prop}

/-- Some files at paths of `S` are gone. -/
def Disk.Loses (S : Set Path) (d d' : Disk) : Prop :=
  ∀ p, d'.entries p = d.entries p ∨ p ∈ S ∧ d'.entries p = none

/-- A file that is at the path has a time with `P`. -/
def Disk.Left (d : Disk) (p : Path) (P : TimeStamp → Prop) : Prop :=
  ∀ mtime content x, d.entries p = some (.file mtime content x) → P mtime

lemma Disk.Loses.refl (d : Disk) : d.Loses S d := fun _ => .inl rfl

lemma Disk.Loses.trans (h₁ : d.Loses S d') (h₂ : d'.Loses S d'') : d.Loses S d'' := fun p => by
  rcases h₂ p with h | h
  · rw [h]
    exact h₁ p
  · exact .inr h

lemma Disk.Left.loses (h : d.Left p P) (hloses : d.Loses S d') : d'.Left p P := by
  intro mtime content x hfile
  rcases hloses p with hp | ⟨-, hp⟩
  · exact h mtime content x (hp ▸ hfile)
  · rw [hp] at hfile
    cases hfile

lemma Disk.removeFile_leaves (d : Disk) (hp : p ∈ S) :
    d.Loses S (d.removeFile p) ∧ (d.removeFile p).Left p P := by
  rw [Disk.removeFile]
  split
  · refine ⟨fun q => ?_, fun mtime content x hfile => by simp at hfile⟩
    by_cases hq : q = p
    · subst hq
      exact .inr ⟨hp, by simp⟩
    · exact .inl (by simp [hq])
  · rename_i hnone
    exact ⟨.refl d, fun mtime content x hfile => absurd hfile (hnone mtime content x)⟩

/-- What each step of a loop over the disk makes true of its element is true in the end. -/
lemma Disk.foldl_leaves {α : Type} {f : Disk → α → Disk} {Q : α → Disk → Prop} {l : List α}
    (hf : ∀ a ∈ l, ∀ d, d.Loses S (f d a) ∧ Q a (f d a))
    (hkeep : ∀ a d d', Q a d → d.Loses S d' → Q a d') (d : Disk) :
    d.Loses S (l.foldl f d) ∧ ∀ a ∈ l, Q a (l.foldl f d) := by
  induction l generalizing d with
  | nil => exact ⟨.refl d, by simp⟩
  | cons a l ih =>
    obtain ⟨hloses, hq⟩ := hf a List.mem_cons_self d
    obtain ⟨hrest, hqs⟩ := ih (fun x hx => hf x (List.mem_cons_of_mem _ hx)) (f d a)
    exact ⟨hloses.trans hrest, List.forall_mem_cons.mpr ⟨hkeep a _ _ hq hrest, hqs⟩⟩

end Disk

/-- The files that `Cleanup` may remove for an edge. -/
def World.products (w : World) (e : EdgeId) : Set Path :=
  {p | p ∈ (w.edges e).outputs ∨ p = w.getBinding e .depfile ∧ p ≠ []}

/-- What is left of the files of an edge that was aborted. -/
def World.CleanedUp (w : World) (e : EdgeId) (d : Disk) : Prop :=
  (∀ o ∈ (w.edges e).outputs, d.Left o fun mtime =>
    mtime = (w.nodes o).mtime ∧ w.getBinding e .depfile = []) ∧
  (w.getBinding e .depfile ≠ [] → d.Left (w.getBinding e .depfile) fun _ => False)

section World

variable {w : World} {e : EdgeId} {S : Set Path}

lemma World.CleanedUp.loses {d d' : Disk} (h : w.CleanedUp e d) (hloses : d.Loses S d') :
    w.CleanedUp e d' :=
  ⟨fun o ho => (h.1 o ho).loses hloses, fun hd => (h.2 hd).loses hloses⟩

lemma World.removeOutput_leaves (depfile : Path) {o : Path} (ho : o ∈ S) (d : Disk) :
    d.Loses S (w.removeOutput depfile d o) ∧ (w.removeOutput depfile d o).Left o fun mtime =>
      mtime = (w.nodes o).mtime ∧ depfile = [] := by
  rw [World.removeOutput]
  split
  · exact d.removeFile_leaves ho
  · rename_i hkeep
    refine ⟨.refl d, fun mtime content x hfile => ?_⟩
    obtain ⟨hdepfile, hmtime⟩ := not_or.mp hkeep
    rw [Disk.mtime, Disk.stat, hfile] at hmtime
    exact ⟨(not_not.mp hmtime).symm, not_not.mp hdepfile⟩

lemma World.removeOutputs_leaves (hS : w.products e ⊆ S) (d : Disk) :
    d.Loses S (w.removeOutputs d e) ∧ w.CleanedUp e (w.removeOutputs d e) := by
  obtain ⟨hloses, hleft⟩ := Disk.foldl_leaves
    (Q := fun o d => d.Left o fun mtime =>
      mtime = (w.nodes o).mtime ∧ w.getBinding e .depfile = [])
    (fun _ ho => w.removeOutput_leaves _ (hS (.inl ho))) (fun _ _ _ h => h.loses) d
  rw [World.removeOutputs]
  split
  · rename_i hdepfile
    obtain ⟨hlast, hgone⟩ := Disk.removeFile_leaves _ (hS (.inr ⟨rfl, hdepfile⟩))
    exact ⟨hloses.trans hlast, fun o ho => (hleft o ho).loses hlast, fun _ => hgone⟩
  · exact ⟨hloses, hleft, fun h => absurd h ‹_›⟩

end World

variable {ρ : Type}

/-- Giving back job slots leaves a trace and nothing else. -/
lemma forEach_release (l : List EdgeId) (w : World) :
    ∃ trace, forEach l release w = .ok () { w with trace := trace } := by
  induction l generalizing w with
  | nil => exact ⟨w.trace, rfl⟩
  | cons e l ih =>
    have hfirst : ∃ trace, release e w = .ok () { w with trace := trace } := by
      rw [release, modify_apply]
      split
      · exact ⟨_, rfl⟩
      · exact ⟨w.trace, rfl⟩
    obtain ⟨trace, hfirst⟩ := hfirst
    rw [forEach, bind_apply, hfirst]
    exact ih { w with trace := trace }

lemma clearJobTokens_same (r : CommandRunner ρ) (active : List EdgeId) (w : World) :
    ∃ trace, clearJobTokens r active w = .ok () { w with trace := trace } := by
  rw [clearJobTokens]
  split
  · exact forEach_release active w
  · exact ⟨w.trace, rfl⟩

/-- **Cleanup leaves nothing half written.** It always returns. Only outputs and depfiles of active
edges and the lock file are removed. An output of an active edge that is still there has the time
that the scan has recorded, and its edge has no depfile; a depfile is gone. Removing a file only
fails here for a path that `Stat` fails for, and such a path is not counted as a file. -/
theorem cleanup_leaves (env : Env) (r : CommandRunner ρ) (b : Builder ρ) :
    ∃ b', cleanup env r b = .ok () b' ∧
      b.world.disk.Loses {p | p = env.lockFilePath ∨
        ∃ e ∈ r.getActiveEdges b.runner, p ∈ b.world.products e} b'.world.disk ∧
      ∀ e ∈ r.getActiveEdges b.runner, b.world.CleanedUp e b'.world.disk := by
  generalize hactive : r.getActiveEdges b.runner = active
  generalize hS : {p | p = env.lockFilePath ∨ ∃ e ∈ active, p ∈ b.world.products e} = S
  obtain ⟨trace, htokens⟩ := clearJobTokens_same r active b.world
  obtain ⟨hloses, hclean⟩ := Disk.foldl_leaves (fun e he => b.world.removeOutputs_leaves
    (S := S) fun p hp => hS ▸ .inr ⟨e, he, hp⟩) (fun _ _ _ h => h.loses) b.world.disk
  have hlock : ∀ d : Disk, d.Loses S (d.removeLockFile env) := fun d => by
    rw [Disk.removeLockFile]
    split
    · exact (d.removeFile_leaves (P := fun _ => True) (hS ▸ .inl rfl)).1
    · exact .refl d
  refine ⟨{ b with
    world := { b.world with trace := trace, disk :=
      (active.foldl b.world.removeOutputs b.world.disk).removeLockFile env }
    runner := r.abort b.runner }, ?_, hloses.trans (hlock _), fun e he =>
      (hclean e he).loses (hlock _)⟩
  simp only [cleanup, bind_apply, get_apply, modify_apply, hactive, lift, htokens]
  rfl

end Reninja
