import Mathlib.Data.List.Forall2
import Preproc.Proofs.Preprocessor.Inclusions
import Preproc.Proofs.Preprocessor.Runs

/-!
# Remembering where headers are

A header is looked for once: what was found, or that nothing was, is remembered for the next time
the same name is asked for from the same directory, in the same kind of brackets. As long as the
disk stays as it is this makes no difference. What is remembered is what a search would find
(`HeaderSearch.Coherent`), which every search keeps and every step of a run does.

What a search has to find is said by `FirstFile`, without any memory: the first file of that name
in the directory of the file that asks for it, unless the name stands in angle brackets, and then in
the include paths.

## Key results

- `firstFile_iff`: a search finds the first file, and nothing else
- `HeaderSearch.Coherent.find`: an answer is that of a search, and what is remembered stays coherent
- `coherent_of_reaches`: so it is all through a run
- `find_transparent`: remembering makes no difference
-/

namespace Preproc

/-! ## Paths from the root -/

namespace Path

/-- A path from the root that does not lead upwards. -/
structure IsAbsolute (p : Path) : Prop where
  rooted : p.slashes ≠ 0
  upward : ".." ∉ p.parts

/-- Resolving dots leaves no way upwards. -/
private theorem notMem_resolveDots (parts : List String) : ".." ∉ resolveDots parts := by
  unfold resolveDots
  rw [List.mem_reverse]
  -- No name that is kept is a pair of dots, and dropping one leaves the others.
  refine List.foldlRecOn (motive := fun above => ".." ∉ above) parts _ (by simp) ?_
  intro above habove name _
  split
  · exact fun hmem => habove (List.mem_of_mem_tail hmem)
  · rename_i hname
    simp only [List.mem_cons, not_or]
    exact ⟨fun heq => hname heq.symm, habove⟩

/-- A path is made absolute from the root. -/
private theorem isAbsolute_absolute {cwd : Path} (hcwd : cwd.slashes ≠ 0) (p : Path) :
    (absolute cwd p).IsAbsolute := by
  unfold absolute
  split
  · exact ⟨hcwd, notMem_resolveDots _⟩
  · rename_i hrooted
    exact ⟨hrooted, notMem_resolveDots _⟩

end Path

/-! ## The file that is asked for -/

/-- The directories in which a header may be, in order. -/
def HeaderKey.dirs (key : HeaderKey) (paths : List Path) : List Path :=
  if key.angle then paths else .ofString key.dir :: paths

/-- The path from the root to `target` in the directory `dir`. -/
def Disk.place (d : Disk) (dir : Path) (target : String) : Path :=
  .absolute d.cwd (dir.join target)

/-- The first file that goes by `target` in one of the directories, if there is one. -/
inductive FirstFile (d : Disk) (target : String) : List Path → Option String → Prop
  | nowhere : FirstFile d target [] none
  | here {dir : Path} {dirs : List Path} {bytes : List UInt8}
      (file : d.follow (d.place dir target).toString = .ok (.file bytes)) :
      FirstFile d target (dir :: dirs) (some (d.place dir target).toString)
  | later {dir : Path} {dirs : List Path} {found : Option String}
      (noFile : ∀ bytes, d.follow (d.place dir target).toString ≠ .ok (.file bytes))
      (rest : FirstFile d target dirs found) : FirstFile d target (dir :: dirs) found

/-- A path leads to a file if it can be followed to one. -/
theorem Disk.isFile_iff {d : Disk} {path : String} :
    d.isFile path = true ↔ ∃ bytes, d.follow path = .ok (.file bytes) := by
  unfold isFile
  split
  · rename_i bytes hfollow
    simp [hfollow]
  · rename_i hother
    simp only [Bool.false_eq_true, false_iff, not_exists]
    exact hother

/-- A search finds the first file, and nothing else. -/
theorem firstFile_iff {d : Disk} {target : String} {dirs : List Path} {found : Option String} :
    FirstFile d target dirs found ↔
      found = (dirs.map fun dir => (d.place dir target).toString).find? d.isFile := by
  constructor
  · intro h
    induction h with
    | nowhere => rfl
    | here file => rw [List.map_cons, List.find?_cons_of_pos (Disk.isFile_iff.2 ⟨_, file⟩)]
    | later noFile rest ih =>
      rw [List.map_cons, List.find?_cons_of_neg, ih]
      exact fun hfile => absurd (Disk.isFile_iff.1 hfile) (not_exists.2 noFile)
  · -- The search goes through the directories in the same order.
    rintro rfl
    induction dirs with
    | nil => exact .nowhere
    | cons dir dirs ih =>
      rw [List.map_cons]
      by_cases hfile : d.isFile (d.place dir target).toString = true
      · obtain ⟨bytes, hbytes⟩ := Disk.isFile_iff.1 hfile
        rw [List.find?_cons_of_pos hfile]
        exact .here hbytes
      · rw [List.find?_cons_of_neg hfile]
        exact .later (not_exists.1 fun h => hfile (Disk.isFile_iff.2 h)) ih

/-- What is found is named by its path from the root. -/
private theorem FirstFile.isAbsolute {d : Disk} {target file : String} {dirs : List Path}
    (h : FirstFile d target dirs (some file)) (hcwd : d.cwd.slashes ≠ 0) :
    ∃ path : Path, path.IsAbsolute ∧ file = path.toString := by
  generalize hfound : some file = found at h
  induction h with
  | nowhere => cases hfound
  | here file =>
    cases hfound
    exact ⟨_, Path.isAbsolute_absolute hcwd _, rfl⟩
  | later noFile rest ih => exact ih hfound

namespace HeaderSearch

/-- The search of a run finds the first file in the directories that count. -/
theorem firstFile_search_iff {h : HeaderSearch} {d : Disk} {key : HeaderKey}
    {found : Option String} :
    FirstFile d key.target (key.dirs h.paths) found ↔ found = h.search d key := by
  rw [firstFile_iff, search, candidates]
  cases hangle : key.angle with
  | true => simp [HeaderKey.dirs, hangle, Disk.place]
  | false => simp [HeaderKey.dirs, hangle, Disk.place]

/-! ## What is remembered -/

/-- Headers are looked for in `paths`, and what is remembered is what is found there. -/
structure Coherent (d : Disk) (paths : List Path) (h : HeaderSearch) : Prop where
  paths_eq : h.paths = paths
  known : ∀ entry ∈ h.known, entry.2 = ({ paths } : HeaderSearch).search d entry.1

private theorem coherent_fresh (d : Disk) (paths : List Path) : Coherent d paths { paths } :=
  ⟨rfl, by simp⟩

/-- A search depends on the include paths, not on what is remembered. -/
private theorem search_congr {h : HeaderSearch} {paths : List Path} (hpaths : h.paths = paths)
    (d : Disk) (key : HeaderKey) : h.search d key = ({ paths } : HeaderSearch).search d key := by
  subst hpaths
  rfl

/-- An answer is that of a search, whatever is remembered, and it may be remembered. -/
theorem Coherent.find {d : Disk} {paths : List Path} {h : HeaderSearch} (hh : h.Coherent d paths)
    (key : HeaderKey) :
    (h.find d key).1 = ({ paths } : HeaderSearch).search d key ∧
      (h.find d key).2.Coherent d paths := by
  unfold HeaderSearch.find
  cases hknown : h.known.lookup key with
  | some result =>
    -- It is remembered, and what is remembered is right.
    obtain ⟨before, after, hentries, -⟩ := List.lookup_eq_some_iff.1 hknown
    have hmem : (key, result) ∈ h.known := by
      rw [hentries]
      exact List.mem_append_right _ List.mem_cons_self
    exact ⟨hh.known _ hmem, hh⟩
  | none =>
    -- It is looked for, and remembered from then on.
    have hsearch := search_congr hh.paths_eq d key
    refine ⟨hsearch, hh.paths_eq, ?_⟩
    exact List.forall_mem_cons.2 ⟨hsearch, hh.known⟩

/-- A search forgets nothing, so what is remembered after it is coherent only if it was before. -/
theorem coherent_find_iff {d : Disk} {paths : List Path} {h : HeaderSearch} {key : HeaderKey} :
    (h.find d key).2.Coherent d paths ↔ h.Coherent d paths := by
  refine ⟨fun hfound => ?_, fun hh => (hh.find key).2⟩
  unfold HeaderSearch.find at hfound
  cases hknown : h.known.lookup key with
  | some result =>
    rw [hknown] at hfound
    exact hfound
  -- Only the answer to this search has been added.
  | none =>
    rw [hknown] at hfound
    exact ⟨hfound.paths_eq, (List.forall_mem_cons.1 hfound.known).2⟩

/-- Looks for headers one after the other. -/
def findAll (h : HeaderSearch) (d : Disk) : List HeaderKey → List (Option String) × HeaderSearch
  | [] => ([], h)
  | key :: keys =>
    let (found, h₁) := h.find d key
    let (answers, h₂) := h₁.findAll d keys
    (found :: answers, h₂)

/-- Each of many searches is answered as the first one is. -/
private theorem Coherent.findAll {d : Disk} {paths : List Path} {h : HeaderSearch}
    (hh : h.Coherent d paths) (keys : List HeaderKey) :
    (h.findAll d keys).1 = keys.map (({ paths } : HeaderSearch).search d) ∧
      (h.findAll d keys).2.Coherent d paths := by
  induction keys generalizing h with
  | nil => exact ⟨rfl, hh⟩
  | cons key keys ih =>
    obtain ⟨hanswer, hnext⟩ := hh.find key
    obtain ⟨hanswers, hlast⟩ := ih hnext
    exact ⟨by simp only [HeaderSearch.findAll, hanswer, hanswers, List.map_cons], hlast⟩

end HeaderSearch

/-! ## Runs -/

namespace Context

/-- What is remembered of headers is what is found. A search leaves this as it is, true or not, so
it is a part of what is known that a run keeps. -/
def trusted (d : Disk) (paths : List Path) (c : Context) : Prop :=
  c.headers.Coherent d paths

section Trusted

variable {env : Environment} {paths : List Path}

private theorem aloof_trusted : Aloof (trusted env.disk paths) := fun _ _ _ => rfl

/-- A report changes nothing about it. -/
private theorem trusted_report (d : Diagnostic) : Keeps (trusted env.disk paths) (report d) := by
  intro c a c' h
  cases h
  rfl

private theorem trusted_unbalanced (d : Diagnostic) :
    Keeps (trusted env.disk paths) (unbalanced env d) := by
  refine ((aloof_trusted.note _).bind fun _ => trusted_report d).bind fun _ => ?_
  split
  · exact keeps_throw _
  · exact keeps_pure ()

private theorem trusted_markOnce (file : String) : Keeps (trusted env.disk paths)
    (markOnce env file) := by
  intro c a c' h
  cases h
  rfl

/-- Expansion asks for no header. -/
private theorem trusted_expand (condition : Bool) (ts : List Token) :
    Keeps (trusted env.disk paths) (expand env condition ts) := by
  intro c out c' h
  rw [expand_apply] at h
  split at h
  · cases h
    rfl
  · cases h

private theorem trusted_lookForHeader (file : String) (name : HeaderName) (c : Context) :
    trusted env.disk paths (lookForHeader env file name c).2 = trusted env.disk paths c :=
  propext HeaderSearch.coherent_find_iff

/-- Finding a header keeps what is remembered coherent. -/
private theorem trusted_findHeader (file : String) (name : HeaderName) :
    Keeps (trusted env.disk paths) (findHeader env file name) := by
  intro c a c' h
  cases h
  exact trusted_lookForHeader file name c

/-- The questions of a condition may ask for headers, and the answers are remembered as found. -/
private theorem trusted_answerQueries (file : String) (c : Context) (clauses : List Clause) :
    trusted env.disk paths (answerQueries (answer env file) c clauses).2 =
      trusted env.disk paths c :=
  answerQueries_induction (P := fun c₁ => trusted env.disk paths c₁ = trusted env.disk paths c)
    (fun name c₁ h => (trusted_lookForHeader file name c₁).trans h) clauses rfl

private theorem trusted_test (file : String) (condition : List Token) :
    Keeps (trusted env.disk paths) (test env file condition) :=
  aloof_trusted.test (trusted_answerQueries file) (trusted_expand true) condition

private theorem trusted_missingHeader (d : Diagnostic) (spelling : String) :
    Keeps (trusted env.disk paths) (missingHeader env d spelling) :=
  composes_keeps.missingHeader (aloof_trusted.note _) (trusted_report d)

private theorem trusted_inclusion? (d : DirectiveLine) (target : IncludeTarget) (once : Bool) :
    Keeps (trusted env.disk paths) (inclusion? env d target once) :=
  composes_keeps.inclusion? (trusted_expand false) aloof_trusted.note
    (trusted_findHeader d.file) (fun _ => trusted_missingHeader _ _) target once

/-- Every directive keeps the remembered headers trustworthy. -/
private theorem trusted_carryOut (base : Nat) (d : DirectiveLine) :
    Keeps (trusted env.disk paths) (carryOut env base d) := by
  cases hd : d.directive.isConditional with
  | true =>
    exact aloof_trusted.carryOut_of_isConditional hd (trusted_test d.file) trusted_unbalanced
  | false =>
    obtain ⟨tokens, directive⟩ := d
    cases directive with
    -- Macros are not remembered headers.
    | define name params body =>
      intro c a c' h
      cases h
      rfl
    | undef name =>
      intro c a c' h
      cases h
      rfl
    | other => exact (aloof_trusted.note _).bind fun _ => keeps_pure none
    | pragma args =>
      unfold carryOut
      simp only
      split
      · exact (trusted_markOnce _).bind fun _ => keeps_pure none
      · exact keeps_pure none
    | inclusion target once => exact trusted_inclusion? _ target once
    | _ => cases hd

/-- Every line that starts with `#` keeps them trustworthy, heeded or not. -/
private theorem trusted_directive (base : Nat) (line : List Token) :
    Keeps (trusted env.disk paths) (directive env base line) := by
  intro c a c' h
  cases hd : c.heeded? line with
  -- A line that is not heeded leaves notes.
  | none =>
    obtain ⟨notes, hnone⟩ := directive_of_unheeded hd env base
    rw [hnone] at h
    cases h
    rfl
  | some d =>
    rw [directive_of_heeded hd] at h
    exact (trusted_carryOut base d h).trans rfl

/-- Including a file asks for no further header. -/
private theorem trusted_including (opened : Nat) (i : Inclusion) :
    Keeps (trusted env.disk paths) (including env opened i) := by
  have hremark : ∀ d, Keeps (trusted env.disk paths) (remark d) :=
    fun d => (aloof_trusted.note _).bind fun _ => trusted_report d
  refine (keeps_enters (trusted_markOnce i.path)).bind fun b => ?_
  cases b with
  | true => exact composes_keeps.reading (fun _ => hremark _) (hremark _)
  | false => exact keeps_pure none

end Trusted

end Context

namespace Preprocessor

/-- Opening a file tells nothing of headers. -/
private theorem headers_enter (p : Preprocessor) (name : String) (content : Option (List Char)) :
    (p.enter name content).context.headers = p.context.headers := by
  cases content with
  | none => rfl
  | some text => rfl

/-- Every step keeps what is remembered of headers coherent. -/
private theorem coherent_of_advance {p q : Preprocessor} {out : List Token} {paths : List Path}
    (h : Advance p q out) (hp : p.context.headers.Coherent p.env.disk paths) :
    q.context.headers.Coherent p.env.disk paths := by
  -- Each step does one or two actions, which keep what is remembered coherent.
  have hkeeps : ∀ {α : Type} {act : ContextM α} {c c' : Context} {a : α},
      Context.Keeps (Context.trusted p.env.disk paths) act → act c = .ok a c' →
      c.headers = p.context.headers → c'.headers.Coherent p.env.disk paths := by
    intro α act c c' a hact hok hc
    refine (hact hok).mpr ?_
    rw [Context.trusted, hc]
    exact hp
  cases h with
  | main hfiles hstage =>
    rw [headers_enter]
    exact hp
  | missing hfiles hstage hfound hreport =>
    have hlooked := hkeeps (Context.trusted_findHeader _ _) hfound rfl
    exact (Context.trusted_missingHeader _ _ hreport).mpr hlooked
  | forced hfiles hstage hfound hcontent =>
    have hlooked := hkeeps (Context.trusted_findHeader _ _) hfound rfl
    rw [headers_enter]
    exact (Context.trusted_including _ _ hcontent).mpr hlooked
  | collect => exact hp
  | flush hfiles hlines hhash hpending hout =>
    exact hkeeps (Context.trusted_expand _ _) hout rfl
  | flushLast hfiles hlines hpending hout =>
    exact hkeeps (Context.trusted_expand _ _) hout rfl
  | directive hfiles hlines hhash hpending hdone =>
    exact hkeeps (Context.trusted_directive _ _) hdone rfl
  | inclusion hfiles hlines hhash hpending hdone hcontent =>
    have hlooked := hkeeps (Context.trusted_directive _ _) hdone rfl
    rw [headers_enter]
    exact (Context.trusted_including _ _ hcontent).mpr hlooked
  | close hfiles hlines hpending hmain hclose =>
    exact hkeeps (Context.aloof_trusted.closeGroups Context.trusted_unbalanced _ _ _) hclose rfl
  | closeMain hfiles hlines hpending hmain hclose =>
    exact hkeeps (Context.aloof_trusted.closeGroups Context.trusted_unbalanced _ _ _) hclose rfl

/-- What is remembered is coherent all through a run. -/
theorem coherent_of_reaches {p q : Preprocessor} {paths : List Path} (h : Reaches p q)
    (hp : p.context.headers.Coherent p.env.disk paths) :
    q.context.headers.Coherent p.env.disk paths := by
  induction h with
  | refl => exact hp
  | step first _ ih =>
    have hadvance := advance_of_step first
    have henv := env_of_advance hadvance
    -- The disk is that of the start.
    rw [← henv] at hp ⊢
    exact ih (henv ▸ coherent_of_advance hadvance (henv ▸ hp))

end Preprocessor

/-- As long as the disk stays as it is, remembering makes no difference. Whatever headers were asked
for before, in whatever way, each search is answered as the first one is: by the one first file of
that name in the directories that count, under its path from the root, or by nothing if there is
none. So is each search in a run that starts with nothing remembered. -/
theorem find_transparent (d : Disk) (paths : List Path) (keys : List HeaderKey) :
    let fresh : HeaderSearch := { paths }
    let answers := (fresh.findAll d keys).1
    answers = keys.map (fun key => (fresh.find d key).1) ∧
    List.Forall₂ (fun key found => ∀ file,
      FirstFile d key.target (key.dirs paths) file ↔ file = found) keys answers ∧
    (d.cwd.slashes ≠ 0 → ∀ file, some file ∈ answers →
      ∃ path : Path, path.IsAbsolute ∧ file = path.toString) ∧
    ∀ p q : Preprocessor, p.env.disk = d → p.context.headers = fresh → p.Reaches q →
      ∀ key, (q.context.headers.find d key).1 = (fresh.find d key).1 := by
  intro fresh answers
  have hanswers : answers = keys.map (fresh.search d) :=
    ((HeaderSearch.coherent_fresh d paths).findAll keys).1
  refine ⟨hanswers, ?_, ?_, ?_⟩
  · -- Each answer is that of a search, which finds the first file.
    rw [hanswers, List.forall₂_map_right_iff, List.forall₂_same]
    exact fun key _ file => HeaderSearch.firstFile_search_iff (h := fresh)
  · intro hcwd file hfile
    rw [hanswers, List.mem_map] at hfile
    obtain ⟨key, -, hfound⟩ := hfile
    obtain ⟨path, hpath, rfl⟩ := (HeaderSearch.firstFile_search_iff.2 hfound.symm).isAbsolute hcwd
    exact ⟨path, hpath, rfl⟩
  · rintro p q rfl hheaders hreaches key
    have hfresh : p.context.headers.Coherent p.env.disk paths :=
      hheaders ▸ HeaderSearch.coherent_fresh p.env.disk paths
    exact ((Preprocessor.coherent_of_reaches hreaches hfresh).find key).1

/-! ## A header of the same name in two places -/

/-- A state after so many steps is reached. -/
private theorem Preprocessor.reaches_of_after? {n : Nat} {p q : Preprocessor}
    (h : p.after? n = some q) : Reaches p q := by
  induction n generalizing p with
  | zero =>
    cases h
    exact .refl _
  | succ n ih =>
    obtain ⟨r, out, hstep, hrest⟩ := step_of_after? h
    exact .step hstep (ih hrest)

namespace Shadowed

/-- A disk with two headers `x.h`. -/
def disk : Disk :=
  { cwd := ⟨1, []⟩
    entries := [(["q"], .directory), (["q", "x.h"], .file []), (["inc"], .directory),
      (["inc", "x.h"], .file [])] }

/-- Headers are looked for in `/inc`. -/
def paths : List Path :=
  [⟨1, ["inc"]⟩]

/-- The header, in quotes and in angle brackets, from both directories and more than once. -/
def keys : List HeaderKey :=
  [⟨"x.h", "/q", false⟩, ⟨"x.h", "/q", true⟩, ⟨"x.h", "/inc", false⟩, ⟨"y.h", "/q", false⟩,
    ⟨"x.h", "/q", false⟩, ⟨"y.h", "/q", false⟩]

/-- A text that asks for the header in both ways, and for one that is not there. -/
def text : List Char :=
  "#include \"x.h\"\n#include <x.h>\n#include <y.h>".toList

/-- The run on the text. -/
def begun : Preprocessor :=
  { Preprocessor.ofConfig { includePaths := paths } disk .sample with
    stage := .forced [] "/q/a.c" text }

end Shadowed

open Shadowed in
/-- The header next to the file that asks for it is found in quotes only, also when the other one is
remembered. That there is no header is remembered too. -/
theorem find_transparent_shadowed :
    let fresh : HeaderSearch := { paths }
    (fresh.findAll disk keys).1 =
      [some "/q/x.h", some "/inc/x.h", some "/inc/x.h", none, some "/q/x.h", none] ∧
    (∀ file, FirstFile disk "x.h" [⟨1, ["q"]⟩, ⟨1, ["inc"]⟩] file ↔ file = some "/q/x.h") ∧
    (∃ path : Path, path.IsAbsolute ∧ "/inc/x.h" = path.toString) ∧
    ∃ q, begun.Reaches q ∧ q.context.headers.known.length = 3 ∧
      ∀ key, (q.context.headers.find disk key).1 = (fresh.find disk key).1 := by
  intro fresh
  have hanswers : (fresh.findAll disk keys).1 =
      [some "/q/x.h", some "/inc/x.h", some "/inc/x.h", none, some "/q/x.h", none] := by
    decide +kernel
  -- Six steps of a run ask for three headers.
  have hrun : (begun.after? 6).any (·.context.headers.known.length = 3) = true := by
    decide +kernel
  obtain ⟨q, hq, hknown⟩ := (Option.any_eq_true _ _).1 hrun
  have hreaches := Preprocessor.reaches_of_after? hq
  obtain ⟨-, hfirst, habsolute, hlater⟩ := find_transparent disk paths keys
  rw [hanswers] at hfirst habsolute
  refine ⟨hanswers, ?_, habsolute (by decide) _ (by decide), q, hreaches,
    of_decide_eq_true hknown, hlater begun q rfl rfl hreaches⟩
  exact (List.forall₂_cons.1 hfirst).1

end Preproc
