import Preproc.Preprocessor

/-!
# Runs end

A step takes a line from the innermost file, expands what was collected there, or closes the file; a
file is opened only in the place of a line, and only while fewer files are open than the limit. So
what is left to do becomes smaller with every step, in an order without infinite descent
(`below_of_step`, `wellFounded_below`), and a run can be defined as going on for as long as there
are steps.
-/

namespace Preproc

/-- How much there is left to do in a file. -/
def OpenFile.load (f : OpenFile) : Nat :=
  2 * f.lines.length + (if f.pending.isEmpty then 0 else 1)

/-- How much there is left to do before the main file is opened. -/
def Stage.load : Stage → Nat
  | forced todo .. => todo.length + 1
  | _ => 0

/-- One stack of loads is below another if its first is done, or less, or less with another on top
of it while the stack is not higher than `limit`. -/
inductive Lighter (limit : Nat) : List Nat → List Nat → Prop
  | done {n : Nat} {rest : List Nat} : Lighter limit rest (n :: rest)
  | less {m n : Nat} {rest : List Nat} (h : m < n) : Lighter limit (m :: rest) (n :: rest)
  | opened {k m n : Nat} {rest : List Nat} (h : m < n) (hl : rest.length + 1 < limit) :
      Lighter limit (k :: m :: rest) (n :: rest)

namespace Lighter

/-- If there is no descent without end from a stack, there is none with one more load on top. -/
theorem acc_cons {limit : Nat} {rest : List Nat} (hrest : Acc (Lighter limit) rest) (n : Nat) :
    Acc (Lighter limit) (n :: rest) := by
  induction hd : limit - rest.length using Nat.strongRecOn generalizing rest n with
  | ind d ihd =>
    induction n using Nat.strongRecOn with
    | ind n ihn =>
      constructor
      intro below hbelow
      cases hbelow with
      | done => exact hrest
      | less h => exact ihn _ h
      | opened h hl => exact ihd _ (by simp; omega) (ihn _ h) _ rfl

theorem wellFounded (limit : Nat) : WellFounded (Lighter limit) := by
  constructor
  intro loads
  induction loads with
  | nil => exact ⟨_, fun _ h => nomatch h⟩
  | cons n rest ih => exact acc_cons ih n

end Lighter

namespace Preprocessor

/-- How much there is left to do in the open files, innermost first. -/
def loads (p : Preprocessor) : List Nat :=
  p.files.map OpenFile.load

/-- One run has less left to do than another with the same settings. -/
def Below (q p : Preprocessor) : Prop :=
  q.env = p.env ∧ (q.stage.load < p.stage.load ∨
    q.stage.load = p.stage.load ∧ Lighter p.env.config.maxIncludeDepth q.loads p.loads)

/-- There is no descent without end among runs. -/
theorem wellFounded_below : WellFounded Below := by
  constructor
  intro p
  generalize hs : p.stage.load = s
  induction s using Nat.strongRecOn generalizing p with
  | ind s ihs =>
    generalize hlimit : p.env.config.maxIncludeDepth = limit
    generalize hl : p.loads = loads
    induction (Lighter.wellFounded limit).apply loads generalizing p with
    | intro loads _ ihl =>
      constructor
      rintro q ⟨henv, hstage | ⟨hstage, hloads⟩⟩
      · exact ihs _ (by omega) _ rfl
      · rw [hl, hlimit] at hloads
        exact ihl _ hloads q (by omega) (by rw [henv, hlimit]) rfl

instance : WellFoundedRelation Preprocessor :=
  ⟨Below, wellFounded_below⟩

/-! ## Steps -/

theorem more_of_doing {α : Type} {p q : Preprocessor} {act : ContextM α}
    {next : α → Context → Step} {out : List Token} (h : p.doing act next = .more q out) :
    ∃ a c, next a c = .more q out := by
  unfold doing at h
  split at h
  · exact ⟨_, _, h⟩
  · simp at h

theorem openFile_more {p q : Preprocessor} {name : String} {text : List Char}
    {files : List OpenFile} {stage : Stage} {out : List Token}
    (h : p.openFile name text files stage = .more q out) :
    q.env = p.env ∧ q.stage = stage ∧ ∃ f, q.files = f :: files := by
  obtain ⟨f, c, h⟩ := more_of_doing h
  simp at h
  obtain ⟨rfl, -⟩ := h
  exact ⟨rfl, rfl, f, rfl⟩

/-- Including a file leaves the open files, or opens one more while they are fewer than the
limit. -/
theorem includeFile_more {p q : Preprocessor} {i : Inclusion} {files : List OpenFile}
    {stage : Stage} {out : List Token} (h : p.includeFile i files stage = .more q out) :
    q.env = p.env ∧ q.stage = stage ∧ (q.files = files ∨
      files.length < p.env.config.maxIncludeDepth ∧ ∃ f, q.files = f :: files) := by
  obtain ⟨enters, c, h⟩ := more_of_doing h
  split at h
  · split at h
    · rename_i hdepth
      obtain ⟨text, c, h⟩ := more_of_doing h
      split at h
      · obtain ⟨henv, hstage, f, hf⟩ := openFile_more h
        exact ⟨henv, hstage, .inr ⟨hdepth, f, hf⟩⟩
      · simp at h
        obtain ⟨rfl, -⟩ := h
        exact ⟨rfl, rfl, .inl rfl⟩
    · obtain ⟨_, c, h⟩ := more_of_doing h
      simp at h
      obtain ⟨rfl, -⟩ := h
      exact ⟨rfl, rfl, .inl rfl⟩
  · simp at h
    obtain ⟨rfl, -⟩ := h
    exact ⟨rfl, rfl, .inl rfl⟩

theorem below_of_stepForced {p q : Preprocessor} {todo : List Path} {file : String}
    {text : List Char} {out : List Token} (hp : p.stage = .forced todo file text)
    (h : p.stepForced todo file text = .more q out) : Below q p := by
  unfold stepForced at h
  split at h
  · obtain ⟨henv, hstage, -⟩ := openFile_more h
    exact ⟨henv, .inl (by simp [hp, hstage, Stage.load])⟩
  · obtain ⟨found, c, h⟩ := more_of_doing h
    split at h
    · obtain ⟨henv, hstage, -⟩ := includeFile_more h
      exact ⟨henv, .inl (by simp [hp, hstage, Stage.load])⟩
    · obtain ⟨_, c, h⟩ := more_of_doing h
      simp at h
      obtain ⟨rfl, -⟩ := h
      exact ⟨rfl, .inl (by simp [hp, Stage.load])⟩

theorem below_of_close {p q : Preprocessor} {f : OpenFile} {files : List OpenFile}
    {out : List Token} (hp : p.files = f :: files) (h : p.close f files = .more q out) :
    Below q p := by
  obtain ⟨_, c, h⟩ := more_of_doing h
  split at h
  · rename_i _ _ hmain _
    simp at h
    obtain ⟨rfl, -⟩ := h
    exact ⟨rfl, .inr ⟨by simp [hmain, Stage.load], by simp [loads, hp]; exact .done⟩⟩
  · simp at h
    obtain ⟨rfl, -⟩ := h
    exact ⟨rfl, .inr ⟨rfl, by simp [loads, hp]; exact .done⟩⟩

/-- Expanding what was collected in a file leaves less to do in it. -/
theorem flush_more {p q : Preprocessor} {f : OpenFile} {lines : List (Noted (List Token))}
    {files : List OpenFile} {out : List Token} (hlines : lines.length = f.lines.length)
    (hpending : f.pending.isEmpty = false) (h : p.flush f lines files = .more q out) :
    q.env = p.env ∧ q.stage = p.stage ∧ ∃ g : OpenFile, g.load < f.load ∧ q.files = g :: files := by
  obtain ⟨_, c, h⟩ := more_of_doing h
  simp at h
  obtain ⟨rfl, -⟩ := h
  exact ⟨rfl, rfl, _, by simp [OpenFile.load, hlines, hpending], rfl⟩

theorem below_of_takeLine {p q : Preprocessor} {f : OpenFile} {line : Noted (List Token)}
    {lines : List (Noted (List Token))} {files : List OpenFile} {out : List Token}
    (hp : p.files = f :: files) (hlines : f.lines = line :: lines)
    (h : p.takeLine f line lines files = .more q out) : Below q p := by
  have hload : ({ f with lines } : OpenFile).load < f.load := by
    simp [OpenFile.load, hlines]
  obtain ⟨ts, c, h⟩ := more_of_doing h
  simp only at h
  split at h
  · split at h
    · obtain ⟨wanted, c, h⟩ := more_of_doing h
      split at h
      · simp at h
        obtain ⟨rfl, -⟩ := h
        exact ⟨rfl, .inr ⟨rfl, by simp only [loads, hp, List.map_cons]; exact .less hload⟩⟩
      · obtain ⟨henv, hstage, hfiles⟩ := includeFile_more h
        refine ⟨henv, .inr ⟨by rw [hstage], ?_⟩⟩
        rcases hfiles with hfiles | ⟨hdepth, g, hfiles⟩
        · simp only [loads, hp, hfiles, List.map_cons]
          exact .less hload
        · simp only [loads, hp, hfiles, List.map_cons]
          exact .opened hload (by simpa using hdepth)
    · rename_i hpending
      obtain ⟨henv, hstage, g, hg, hfiles⟩ :=
        flush_more (by simp [hlines]) (by simpa using hpending) h
      refine ⟨henv, .inr ⟨by rw [hstage], ?_⟩⟩
      simp only [loads, hp, hfiles, List.map_cons]
      exact .less hg
  · simp at h
    obtain ⟨rfl, -⟩ := h
    refine ⟨rfl, .inr ⟨rfl, ?_⟩⟩
    simp only [loads, hp, List.map_cons]
    refine .less ?_
    simp only [OpenFile.load, hlines, List.length_cons]
    split <;> split <;> omega

/-- Every step leaves less to do. -/
theorem below_of_step {p q : Preprocessor} {out : List Token} (h : p.step = .more q out) :
    Below q p := by
  unfold step at h
  split at h
  · split at h
    · rename_i hstage
      exact below_of_stepForced hstage h
    · simp at h
  · rename_i f files hp
    split at h
    · rename_i line lines hlines
      exact below_of_takeLine hp hlines h
    · rename_i hlines
      split at h
      · exact below_of_close hp h
      · rename_i hpending
        obtain ⟨henv, hstage, g, hg, hfiles⟩ :=
          flush_more (by simp [hlines]) (by simpa using hpending) h
        refine ⟨henv, .inr ⟨by rw [hstage], ?_⟩⟩
        simp only [loads, hp, hfiles, List.map_cons]
        exact .less hg

end Preprocessor

end Preproc
