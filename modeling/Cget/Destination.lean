import Cget.Frame
import Cget.Merge
/-!
# The destination of a download that fails

Until the merge, nothing touches the file at the target path. The commit then removes it,
renames the merged file into its place, and only after that verifies the checksum and
persists: a failure from the rename on leaves the old file lost or replaced.
-/

namespace Cget

open Prog

variable {env : Env} {s s' : Session}

/-- No operation kills the process. -/
def Env.NoCrash (env : Env) : Prop :=
  (∀ n k, env.fault n ≠ .crash k) ∧ (∀ n k, env.saveFault n ≠ .crash k) ∧ ∀ f ∈ env.commit.all, ∀ k, f ≠ .crash k

theorem Env.NoCrash.not_crashes (hc : env.NoCrash) : ¬ env.Crashes := fun ⟨f, hf, k, h⟩ => hc.2.2 f hf k h

def Session.target (s : Session) : Option Bytes := s.world.disk.out s.task.targetPath

/-- The merged file, if the merge in `s` gets as far as its size check. -/
def Session.merged (env : Env) (s : Session) : Option Bytes :=
  assembled env s.world.disk s.task.chunks s.task.tempDir s.task.fileSize

/-- The merged file can be opened for its checksum, if there is one to compare. -/
def DownloadTask.hashable (env : Env) (t : DownloadTask) : Prop := t.expectedSha256 = none ∨ env.commit.openMerged = .ok

def DownloadTask.digestOk (env : Env) (t : DownloadTask) (b : Bytes) : Prop :=
  ∀ digest, t.expectedSha256 = some digest → env.sha256 b = lowercaseHex digest

theorem verifyChecksum_wp {b : Bytes} (hb : s.target = some b) (hc : env.NoCrash) :
    wp (verifyChecksum env)
      (fun ok s' => s.task.hashable env ∧ s'.world.disk.out = s.world.disk.out ∧
        if ok then s'.task = s.task ∧ s.task.digestOk env b else ¬ s.task.digestOk env b ∧ s'.task.status = .failed)
      (fun _ s' => s'.world.disk.out = s.world.disk.out ∧ (¬ s.task.hashable env ∧ s'.task = s.task ∨
        s.task.hashable env ∧ ¬ s.task.digestOk env b ∧ s'.task.status = .failed))
      (fun _ => False) s := by
  refine wp_verifyChecksum hb (fun n hok => ?_) (fun n digest hdigest hopen hne => ?_) (fun n k hsome hopen => ?_)
    (fun n k hcrash => hc.2.2 _ (by simp [CommitFaults.all]) k hcrash)
  · refine ⟨?_, rfl, rfl, fun digest h => (hok digest h).2⟩
    cases hdigest : s.task.expectedSha256 with
    | none => exact .inl hdigest
    | some digest => exact .inr (hok digest hdigest).1
  · have hbad : ¬ s.task.digestOk env b := fun h => hne (h digest hdigest)
    exact wp_setFailure (fun _ => ⟨.inr hopen, rfl, hbad, rfl⟩) (fun k _ => ⟨rfl, .inr ⟨.inr hopen, hbad, rfl⟩⟩)
      (fun k h => hc.2.1 _ _ h)
  · refine ⟨rfl, .inl ⟨fun h => ?_, rfl⟩⟩
    rw [DownloadTask.hashable, hopen] at h
    exact h.elim hsome fun h => by cases h

/-- The ways `mergeAndComplete` can end. -/
inductive CommitEnds (env : Env) (s : Session) : Outcome Exn Unit → Session → Prop
  | notAssembled (e : Exn) (s' : Session) : s.merged env = none → s'.world.disk.out s.task.targetPath = s.target →
      s'.task = s.task → CommitEnds env s (.thrown e) s'
  | notRenamed (e : Exn) (s' : Session) (b : Bytes) : s.merged env = some b → env.commit.rename ≠ .ok →
      s'.world.disk.out s.task.targetPath = env.unmoved s.target → s'.task = s.task → CommitEnds env s (.thrown e) s'
  | unopened (e : Exn) (s' : Session) (b : Bytes) : s.merged env = some b → env.commit.rename = .ok →
      ¬ s.task.hashable env → s'.world.disk.out s.task.targetPath = some b → s'.task = s.task →
      CommitEnds env s (.thrown e) s'
  | mismatch (o : Outcome Exn Unit) (s' : Session) (b : Bytes) : o ≠ .stopped → s.merged env = some b →
      env.commit.rename = .ok → s.task.hashable env → ¬ s.task.digestOk env b →
      s'.world.disk.out s.task.targetPath = some b → s'.task.status = .failed → CommitEnds env s o s'
  | completed (s' : Session) (b : Bytes) : s.merged env = some b → env.commit.rename = .ok → s.task.hashable env →
      s.task.digestOk env b → env.commit.save = .ok →
      s'.world.disk.out s.task.targetPath = some b → s'.task.status = .completed → CommitEnds env s (.ok ()) s'
  | unsaved (e : Exn) (s' : Session) (b : Bytes) :
      s.merged env = some b → env.commit.rename = .ok → s.task.hashable env →
      s.task.digestOk env b → env.commit.save ≠ .ok →
      s'.world.disk.out s.task.targetPath = some b → s'.task.status = .completed → CommitEnds env s (.thrown e) s'

theorem commit_ends (hc : env.NoCrash) (s : Session) :
    CommitEnds env s ((mergeAndComplete env).run s).1 ((mergeAndComplete env).run s).2 := by
  rw [← wp_run (P := CommitEnds env s)]
  unfold mergeAndComplete
  simp only [wp_bind, wp_get, onWorld, wp_focus]
  refine wp_mono mergeChunks_wp ?_ ?_ fun _ h => (hc.not_crashes h.2).elim
  · rintro _ w' ⟨-, hf, b, hm, hout⟩
    refine wp_mono (verifyChecksum_wp (b := b) hout hc) ?_ ?_ (fun _ h => h.elim)
    · rintro ok s' ⟨hhash, hsame, h⟩
      have hout' : s'.world.disk.out s.task.targetPath = some b := by rw [hsame]; exact hout
      cases ok with
      | false => exact .mismatch _ s' b (by simp) hm hf hhash h.1 hout' h.2
      | true =>
        obtain ⟨htask, hd⟩ := h
        simp only [if_true, wp_bind, updateTask, setStatus, wp_modify]
        refine wp_persistTask (fun h => ?_) (fun k h => ?_)
          (fun k h => (hc.2.2 _ (by simp [CommitFaults.all]) k h).elim)
        · exact .completed _ b hm hf hhash hd h hout' rfl
        · refine .unsaved _ _ b hm hf hhash hd ?_ hout' rfl
          rw [show env.commit.save = .fail k from h]
          simp
    · rintro e s' ⟨hsame, ⟨hno, htask⟩ | ⟨hhash, hd, hst⟩⟩
      · exact .unopened e s' b hm hf hno (by rw [hsame]; exact hout) htask
      · exact .mismatch _ s' b (by simp) hm hf hhash hd (by rw [hsame]; exact hout) hst
  · rintro e w' ⟨-, ⟨hm, hout⟩ | ⟨⟨b, hm⟩, hf, hout⟩⟩
    · exact .notAssembled e _ hm hout rfl
    · exact .notRenamed e _ b hm hf hout rfl

theorem commit_run (hc : env.NoCrash) (s : Session) :
    ∃ o s', (mergeAndComplete env).run s = (o, s') ∧ CommitEnds env s o s' :=
  ⟨_, _, rfl, commit_ends hc s⟩

/-- A transfer changes neither the output files nor where the task is to go. -/
def Session.SameAim (s s' : Session) : Prop :=
  s'.world.disk.out = s.world.disk.out ∧ s'.task.targetPath = s.task.targetPath ∧
  s'.task.expectedSha256 = s.task.expectedSha256

theorem Session.SameAim.target (h : s.SameAim s') : s'.target = s.target := by
  simp only [Session.target, h.1, h.2.1]

end Cget
