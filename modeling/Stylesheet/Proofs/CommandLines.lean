import Stylesheet.Proofs.EventLines

/-! Command lines as sequences of choices, each written in one of its ways, and what the choices have
to do with what the command writes and how it exits. -/
namespace Stylesheet
namespace Options

/-- What a piece of a command line chooses. -/
inductive Choice where
  | file (path : Text)
  | css (text : Text)
  | only (k : EventKind)
  | json
  | quiet

namespace Choice

/-- The ways to write a choice. -/
inductive Written : Choice → List Text → Prop
  | file {path : Text} (h : isValue path) : Written (file path) [path]
  | css {s : Text} (h : isValue s) : Written (css s) ["--css".toList, s]
  | cssAttached (s : Text) : Written (css s) ["--css=".toList ++ s]
  | only (k : EventKind) : Written (only k) ["--only".toList, k.name]
  | onlyAttached (k : EventKind) : Written (only k) ["--only=".toList ++ k.name]
  | json : Written json ["--json".toList]
  | quiet : Written quiet ["--quiet".toList]
  | letter : Written quiet ["-q".toList]

def apply (o : Options) : Choice → Except UsageError Options
  | file path => o.setFile path
  | css s => o.setCss s
  | only k => .ok { o with only := o.only ++ [k] }
  | json => o.setJson
  | quiet => o.setQuiet

end Choice

/-- A command line that makes the given choices. Behind `--` stand files only. -/
inductive Line : List Choice → List Text → Prop
  | nil : Line [] []
  | files (paths : List Text) : Line (paths.map .file) ("--".toList :: paths)
  | cons {c : Choice} {w : List Text} {cs : List Choice} {args : List Text} (hw : c.Written w)
      (h : Line cs args) : Line (c :: cs) (w ++ args)

variable {o p : Options} {c : Choice} {cs : List Choice} {w args : List Text}

theorem take_two_of_isValue {arg : Text} (h : isValue arg) : arg.take 2 ≠ "--".toList := by
  intro htake
  obtain ⟨d, s, rfl⟩ := List.exists_cons_of_ne_nil (show arg ≠ [] by rintro rfl; cases htake)
  have hd : d = '-' := (List.cons.inj htake).1
  have hs : s.take 1 = ['-'] := (List.cons.inj htake).2
  have hnil : s = [] := by simpa [isValue, hd] using h
  simp [hnil] at hs

/-- The name in an option and what is attached to it. -/
theorem long_parts {n : Text} (hn : '=' ∉ n) (v : Text) :
    n.takeWhile (· ≠ '=') = n ∧ (n ++ '=' :: v).takeWhile (· ≠ '=') = n ∧
      ((n ++ '=' :: v).dropWhile (· ≠ '=')).drop 1 = v := by
  have hall : ∀ d ∈ n, decide (d ≠ '=') = true := by
    intro d hd
    simpa using ne_of_mem_of_not_mem hd hn
  refine ⟨List.takeWhile_eq_self_iff.mpr hall, takeWhile_eq hall (by simp), ?_⟩
  rw [List.dropWhile_append_of_pos hall]
  rfl

variable {n v : Text} {set : Options → Text → Except UsageError Options}

theorem read_attached (hset : setter? n = some set) (hn : '=' ∉ n) :
    o.read (("--".toList ++ n ++ '=' :: v) :: args) = set o v >>= fun q => q.read args := by
  obtain ⟨-, hfront, hvalue⟩ := long_parts hn v
  have harg : "--".toList ++ n ++ '=' :: v = '-' :: '-' :: (n ++ '=' :: v) := rfl
  rw [harg, read, if_neg (by simp), if_pos (by simp)]
  simp only [List.drop_succ_cons, List.drop_zero, hfront, hvalue, hset]
  rw [if_pos (by simp)]

theorem read_separate (hset : setter? n = some set) (hn : '=' ∉ n) (hv : isValue v) :
    o.read (("--".toList ++ n) :: v :: args) = set o v >>= fun q => q.read args := by
  obtain ⟨hfront, -⟩ := long_parts hn v
  have harg : "--".toList ++ n = '-' :: '-' :: n := rfl
  have hne : n ≠ [] := by
    rintro rfl
    cases hset
  rw [harg, read, if_neg (by simpa using hne), if_pos (by simp)]
  simp only [List.drop_succ_cons, List.drop_zero, hfront, hset]
  rw [if_neg (by simpa using hn), if_pos hv]

theorem addKind_name (o : Options) (k : EventKind) (args : List Text) :
    (o.addKind k.name >>= fun q => q.read args) = (Choice.only k).apply o >>= fun q => q.read args := by
  rw [addKind, EventKind.ofName?_name]
  rfl

/-- A choice is made where its writing is read. -/
theorem read_written (hw : c.Written w) (o : Options) (args : List Text) :
    o.read (w ++ args) = c.apply o >>= fun q => q.read args := by
  cases hw with
  | @file path h =>
    have htwo := take_two_of_isValue h
    have hne : path ≠ "--".toList := by
      rintro rfl
      exact htwo rfl
    rw [List.singleton_append, read, if_neg hne, if_neg htwo, if_pos h]
    rfl
  | css h => exact read_separate (n := "css".toList) rfl (by decide) h
  | cssAttached s => exact read_attached (n := "css".toList) rfl (by decide)
  | only k =>
    refine (read_separate (n := "only".toList) rfl (by decide) ?_).trans (addKind_name o k args)
    cases k <;> rfl
  | onlyAttached k =>
    exact (read_attached (n := "only".toList) rfl (by decide)).trans (addKind_name o k args)
  | json =>
    rw [List.singleton_append, read]
    rfl
  | quiet =>
    rw [List.singleton_append, read]
    rfl
  | letter =>
    have hshort : o.readShort ("-q".toList.drop 1) = o.setQuiet >>= fun q => .ok (.inl q) := rfl
    rw [List.singleton_append, read, if_neg (by decide), if_neg (by decide), if_neg (by decide), hshort,
      bind_assoc]
    rfl

theorem readFiles_eq (o : Options) (paths : List Text) :
    o.readFiles paths = (paths.map Choice.file).foldlM Choice.apply o := by
  induction paths generalizing o with
  | nil => rfl
  | cons path paths ih =>
    rw [readFiles, List.map_cons, List.foldlM_cons]
    exact bind_congr ih

/-- The choices of a command line are made in order. -/
theorem read_line (h : Line cs args) (o : Options) :
    o.read args = cs.foldlM Choice.apply o >>= finish := by
  induction h generalizing o with
  | nil => rfl
  | files paths =>
    rw [read, if_pos rfl, readFiles_eq]
  | cons hw h ih =>
    rw [read_written hw, List.foldlM_cons, bind_assoc]
    exact bind_congr ih

/-! What is accepted for a listing makes choices only. -/

theorem long_attached {arg : Text} (htwo : arg.take 2 = "--".toList) (h : '=' ∈ arg) :
    arg = "--".toList ++ (arg.drop 2).takeWhile (· ≠ '=') ++
      '=' :: ((arg.drop 2).dropWhile (· ≠ '=')).drop 1 := by
  have hdrop : '=' ∈ arg.drop 2 := by
    rw [← List.take_append_drop 2 arg, htwo] at h
    simpa using h
  have hrest : (arg.drop 2).dropWhile (· ≠ '=') ≠ [] := by
    intro hnil
    have := List.dropWhile_eq_nil_iff.mp hnil _ hdrop
    simp at this
  obtain ⟨d, v, hv⟩ := List.exists_cons_of_ne_nil hrest
  have hd : d = '=' := by
    have := List.head?_dropWhile_not (· ≠ '=') (arg.drop 2)
    rw [hv] at this
    simpa using this
  calc arg = "--".toList ++ arg.drop 2 := by rw [← htwo, List.take_append_drop]
    _ = "--".toList ++ ((arg.drop 2).takeWhile (· ≠ '=') ++ (arg.drop 2).dropWhile (· ≠ '=')) := by
        rw [List.takeWhile_append_dropWhile]
    _ = _ := by rw [hv, hd, List.append_assoc, List.drop_one, List.tail_cons]

theorem long_alone {arg : Text} (htwo : arg.take 2 = "--".toList) (h : '=' ∉ arg) :
    arg = "--".toList ++ (arg.drop 2).takeWhile (· ≠ '=') := by
  have hall : ∀ d ∈ arg.drop 2, decide (d ≠ '=') = true := by
    intro d hd
    simpa using ne_of_mem_of_not_mem (List.mem_of_mem_drop hd) h
  rw [List.takeWhile_eq_self_iff.mpr hall, ← htwo, List.take_append_drop]

theorem setter?_cases (h : setter? n = some set) :
    n = "css".toList ∧ set = setCss ∨ n = "only".toList ∧ set = addKind := by
  unfold setter? at h
  split at h
  next hname => exact .inl ⟨hname, (Option.some.inj h).symm⟩
  · split at h
    next hname => exact .inr ⟨hname, (Option.some.inj h).symm⟩
    · cases h

theorem eq_quiet_of_isFlag (h : isFlag n) (hjson : n ≠ "json".toList)
    (hhelp : n ≠ "help".toList) (hversion : n ≠ "version".toList) : n = "quiet".toList := by
  rw [isFlag, List.contains_iff_mem, List.mem_cons, List.mem_cons, List.mem_cons, List.mem_singleton] at h
  exact ((h.resolve_left hjson).resolve_right fun h => h.elim hhelp hversion)

theorem addKind_eq_ok {q : Options} (h : o.addKind v = .ok q) : ∃ k, v = EventKind.name k := by
  unfold addKind at h
  split at h
  next k hk =>
    have hname : k.name = v := by simpa using List.find?_some hk
    exact ⟨k, hname.symm⟩
  · cases h

theorem bind_eq_ok {α β : Type} {x : Except UsageError α} {f : α → Except UsageError β} {b : β}
    (h : x >>= f = .ok b) : ∃ a, x = .ok a ∧ f a = .ok b := by
  cases x with
  | error e => cases h
  | ok a => exact ⟨a, rfl, h⟩

theorem quiet_of_setQuiet {q : Options} (h : o.setQuiet = .ok q) : q.quiet = true := by
  unfold setQuiet at h
  split at h
  · cases h
  · cases h
    rfl

theorem readShort_inr {r : Request} {s : Text} (h : o.readShort s = .ok (.inr r)) : r ≠ .list p := by
  fun_induction readShort o s with
  | case1 => cases h
  | case2 o cs ih =>
    obtain ⟨q, -, hread⟩ := bind_eq_ok h
    exact ih q hread
  | case3 | case4 =>
    cases h
    nofun
  | case5 => cases h

/-- A second letter is a repetition, or asks for something else. -/
theorem readShort_inl {q : Options} {s : Text} (h : o.readShort s = .ok (.inl q)) (hs : s ≠ []) :
    s = ['q'] := by
  have hfirst : ∀ {o : Options} {c : Char} {s : Text}, o.readShort (c :: s) = .ok (.inl q) →
      c = 'q' ∧ ∃ q', o.setQuiet = .ok q' ∧ q'.readShort s = .ok (.inl q) := by
    intro o c s h
    rw [readShort] at h
    split_ifs at h with hc
    · exact ⟨hc, bind_eq_ok h⟩
    all_goals cases h
  cases s with
  | nil => exact absurd rfl hs
  | cons c s =>
    obtain ⟨rfl, q', hq', hrest⟩ := hfirst h
    cases s with
    | nil => rfl
    | cons d s =>
      obtain ⟨-, q'', hq'', -⟩ := hfirst hrest
      rw [setQuiet, if_pos (quiet_of_setQuiet hq')] at hq''
      cases hq''

theorem short_of_not_isValue {arg : Text} (h : ¬ isValue arg) : ∃ s, arg = '-' :: s ∧ s ≠ [] := by
  obtain ⟨hne, hhead⟩ : arg ≠ ['-'] ∧ arg.head? = some '-' := by simpa [isValue] using h
  obtain ⟨s, rfl⟩ := List.head?_eq_some_iff.mp hhead
  exact ⟨s, rfl, fun hs => hne (by rw [hs])⟩

/-- The arguments are read as a choice, from the first argument on, and a rest that asks for `p`. -/
def Chooses (p : Options) (args : List Text) : Prop :=
  ∃ c w rest q, Choice.Written c w ∧ args = w ++ rest ∧ read q rest = .ok (.list p)

/-- An option with a value, behind `=` or as the next argument. -/
theorem chooses_valued {arg : Text} {rest : List Text} (h : o.read (arg :: rest) = .ok (.list p))
    (hne : arg ≠ "--".toList) (htwo : arg.take 2 = "--".toList)
    (hset : setter? ((arg.drop 2).takeWhile (· ≠ '=')) = some set) : Chooses p (arg :: rest) := by
  rw [read, if_neg hne, if_pos htwo] at h
  dsimp only at h
  rw [hset] at h
  dsimp only at h
  by_cases ha : '=' ∈ arg
  · rw [if_pos ha] at h
    obtain ⟨q, hq, hread⟩ := bind_eq_ok h
    have harg := long_attached htwo ha
    obtain ⟨hname, rfl⟩ | ⟨hname, rfl⟩ := setter?_cases hset
    · rw [hname] at harg
      exact ⟨_, _, rest, q, .cssAttached _, congrArg (· :: rest) harg, hread⟩
    · obtain ⟨k, hk⟩ := addKind_eq_ok hq
      rw [hname, hk] at harg
      exact ⟨_, _, rest, q, .onlyAttached k, congrArg (· :: rest) harg, hread⟩
  · rw [if_neg ha] at h
    have harg := long_alone htwo ha
    cases rest with
    | nil => cases h
    | cons v rest =>
      dsimp only at h
      split_ifs at h with hv
      obtain ⟨q, hq, hread⟩ := bind_eq_ok h
      obtain ⟨hname, rfl⟩ | ⟨hname, rfl⟩ := setter?_cases hset
      · rw [hname] at harg
        exact ⟨_, _, rest, q, .css hv, congrArg (· :: v :: rest) harg, hread⟩
      · obtain ⟨k, rfl⟩ := addKind_eq_ok hq
        rw [hname] at harg
        exact ⟨_, _, rest, q, .only k, congrArg (· :: k.name :: rest) harg, hread⟩

theorem chooses_flag {arg : Text} {rest : List Text} (h : o.read (arg :: rest) = .ok (.list p))
    (hne : arg ≠ "--".toList) (htwo : arg.take 2 = "--".toList)
    (hset : setter? ((arg.drop 2).takeWhile (· ≠ '=')) = .none) : Chooses p (arg :: rest) := by
  rw [read, if_neg hne, if_pos htwo] at h
  dsimp only at h
  rw [hset] at h
  dsimp only at h
  split_ifs at h with hflag ha hhelp hversion hjson
  · cases h
  · cases h
  · obtain ⟨q, -, hread⟩ := bind_eq_ok h
    have harg := long_alone htwo ha
    rw [hjson] at harg
    exact ⟨_, _, rest, q, .json, congrArg (· :: rest) harg, hread⟩
  · obtain ⟨q, -, hread⟩ := bind_eq_ok h
    have harg := long_alone htwo ha
    rw [eq_quiet_of_isFlag (by simpa using hflag) hjson hhelp hversion] at harg
    exact ⟨_, _, rest, q, .quiet, congrArg (· :: rest) harg, hread⟩

/-- A file, or letters behind one hyphen. -/
theorem chooses_other {arg : Text} {rest : List Text} (h : o.read (arg :: rest) = .ok (.list p))
    (hne : arg ≠ "--".toList) (htwo : arg.take 2 ≠ "--".toList) : Chooses p (arg :: rest) := by
  rw [read, if_neg hne, if_neg htwo] at h
  split_ifs at h with hvalue
  · obtain ⟨q, -, hread⟩ := bind_eq_ok h
    exact ⟨_, _, rest, q, .file hvalue, rfl, hread⟩
  · obtain ⟨x, hx, hread⟩ := bind_eq_ok h
    cases x with
    | inr r => exact absurd (Except.ok.inj hread) (readShort_inr hx)
    | inl q =>
      obtain ⟨s, rfl, hs⟩ := short_of_not_isValue hvalue
      obtain rfl := readShort_inl hx hs
      exact ⟨_, _, rest, q, .letter, rfl, hread⟩

theorem chooses_of_read {arg : Text} {rest : List Text} (h : o.read (arg :: rest) = .ok (.list p))
    (hne : arg ≠ "--".toList) : Chooses p (arg :: rest) := by
  by_cases htwo : arg.take 2 = "--".toList
  · cases hset : setter? ((arg.drop 2).takeWhile (· ≠ '=')) with
    | some set => exact chooses_valued h hne htwo hset
    | none => exact chooses_flag h hne htwo hset
  · exact chooses_other h hne htwo

/-- A command line that is accepted for a listing makes choices only. -/
theorem exists_line (h : o.read args = .ok (.list p)) : ∃ cs, Line cs args := by
  induction hn : args.length using Nat.strong_induction_on generalizing o args with
  | _ n ih =>
    cases args with
    | nil => exact ⟨[], .nil⟩
    | cons arg rest =>
      by_cases hne : arg = "--".toList
      · exact ⟨rest.map .file, by rw [hne]; exact .files rest⟩
      · obtain ⟨c, w, args, q, hw, heq, hread⟩ := chooses_of_read h hne
        have hlen : args.length < n := by
          have hpos : 0 < w.length := by cases hw <;> simp
          have := congrArg List.length heq
          rw [List.length_append] at this
          omega
        obtain ⟨cs, hline⟩ := ih _ hlen hread rfl
        exact ⟨c :: cs, heq ▸ .cons hw hline⟩

/-! Command lines without the choices for one setting. -/

inductive Setting where
  | only
  | json
  | quiet
deriving DecidableEq

/-- The setting that a choice is for, where it is no sheet. -/
def Choice.setting? : Choice → Option Setting
  | .file _ | .css _ => .none
  | .only _ => some .only
  | .json => some .json
  | .quiet => some .quiet

def clear (k : Setting) (o : Options) : Options :=
  match k with
  | .only => { o with only := [] }
  | .json => { o with json := false }
  | .quiet => { o with quiet := false }

/-- The choices of `args` are those of `rest` when the ones for a setting are left out. -/
def Without (k : Setting) (args rest : List Text) : Prop :=
  ∃ cs, Line cs args ∧ Line (cs.filter fun c => c.setting? ≠ some k) rest

variable {k : Setting} {rest : List Text}

theorem Line.exists_without (h : Line cs args) (k : Setting) :
    ∃ rest, Line (cs.filter fun c => c.setting? ≠ some k) rest := by
  induction h with
  | nil => exact ⟨[], .nil⟩
  | files paths =>
    have hall : (paths.map Choice.file).filter (fun c => c.setting? ≠ some k) = paths.map .file := by
      refine List.filter_eq_self.mpr fun c hc => ?_
      obtain ⟨path, -, rfl⟩ := List.mem_map.mp hc
      simp [Choice.setting?]
    exact ⟨_, by rw [hall]; exact .files paths⟩
  | @cons c w cs args hw h ih =>
    obtain ⟨rest, hrest⟩ := ih
    by_cases hc : c.setting? = some k
    · exact ⟨rest, by rwa [List.filter_cons_of_neg (by simp [hc])]⟩
    · exact ⟨w ++ rest, by rw [List.filter_cons_of_pos (by simp [hc])]; exact .cons hw hrest⟩

theorem setFile_clear {path : Text} (h : o.setFile path = .ok p) :
    (o.clear k).setFile path = .ok (p.clear k) := by
  unfold setFile at h
  split_ifs at h with hsome hnil
  cases h
  cases k <;> simp [clear, setFile, hsome, hnil]

theorem setCss_clear {css : Text} (h : o.setCss css = .ok p) :
    (o.clear k).setCss css = .ok (p.clear k) := by
  unfold setCss at h
  split_ifs at h with hsome
  cases h
  cases k <;> simp [clear, setCss, hsome]

theorem apply_clear (h : c.apply o = .ok p) :
    if c.setting? = some k then o.clear k = p.clear k else c.apply (o.clear k) = .ok (p.clear k) := by
  cases c with
  | file path => exact (if_neg nofun).mpr (setFile_clear h)
  | css s => exact (if_neg nofun).mpr (setCss_clear h)
  | only j =>
    cases h
    cases k <;> simp [Choice.setting?, Choice.apply, clear]
  | json =>
    simp only [Choice.apply, setJson] at h
    split_ifs at h with hjson
    cases h
    cases k <;> simp [Choice.setting?, Choice.apply, clear, setJson, hjson]
  | quiet =>
    simp only [Choice.apply, setQuiet] at h
    split_ifs at h with hquiet
    cases h
    cases k <;> simp [Choice.setting?, Choice.apply, clear, setQuiet, hquiet]

theorem foldlM_clear (h : cs.foldlM Choice.apply o = .ok p) :
    (cs.filter fun c => c.setting? ≠ some k).foldlM Choice.apply (o.clear k) = .ok (p.clear k) := by
  induction cs generalizing o with
  | nil =>
    cases h
    rfl
  | cons c cs ih =>
    rw [List.foldlM_cons] at h
    obtain ⟨q, hq, hrest⟩ := bind_eq_ok h
    have hclear := apply_clear (k := k) hq
    by_cases hc : c.setting? = some k
    · rw [if_pos hc] at hclear
      rw [List.filter_cons_of_neg (by simp [hc]), hclear]
      exact ih hrest
    · rw [if_neg hc] at hclear
      rw [List.filter_cons_of_pos (by simp [hc]), List.foldlM_cons, hclear]
      exact ih hrest

theorem finish_clear {r : Options} (h : o.finish = .ok (.list r)) :
    (o.clear k).finish = .ok (.list (r.clear k)) := by
  unfold finish at h
  split_ifs at h with hboth
  cases h
  cases k <;> exact if_neg hboth

/-- Without the choices for a setting a command line asks for the same with the setting cleared. -/
theorem read_without (h : Without k args rest) (hargs : none.read args = .ok (.list o)) :
    none.read rest = .ok (.list (o.clear k)) := by
  obtain ⟨cs, hline, hrest⟩ := h
  rw [read_line hline] at hargs
  obtain ⟨p, hp, hfinish⟩ := bind_eq_ok hargs
  have hnone : none.clear k = none := by cases k <;> rfl
  have hclear := foldlM_clear (k := k) hp
  rw [hnone] at hclear
  rw [read_line hrest, hclear]
  exact finish_clear hfinish

end Options

namespace Command
open Options

theorem decode_utf8 (css : Text) : decode (String.ofList css).toUTF8 = .ok css := by
  have hread : String.fromUTF8? (String.ofList css).toUTF8 = some (String.ofList css) :=
    dif_pos (String.ofList css).isValidUTF8
  rw [decode, hread]
  exact congrArg Except.ok String.toList_ofList

/-- The sheet that a listing is of, with the name of its source: the text given on the command line,
or the one that a file holds in UTF-8. -/
inductive Sheet (read : Text → Except ReadError Text) (o : Options) : Text → Text → Prop
  | inline {css : Text} (h : o.css = some css) : Sheet read o "<inline>".toList css
  | file {path css : Text} (hcss : o.css = .none) (hfile : o.file = some path)
      (hread : read path = decode (String.ofList css).toUTF8) : Sheet read o path css

variable {read : Text → Except ReadError Text} {args rest : List Text} {o : Options} {source css : Text}

theorem answer_eq (hargs : Options.none.read args = .ok (.list o)) (h : Sheet read o source css) :
    answer args read = list o source css := by
  rw [answer, hargs]
  cases h with
  | inline h =>
    dsimp only
    rw [run, h]
  | file hcss hfile hread =>
    dsimp only
    rw [run, hcss, hfile]
    show listFile o source (read source) = _
    rw [hread, decode_utf8]
    rfl

theorem Sheet.clear (h : Sheet read o source css) (k : Setting) : Sheet read (o.clear k) source css := by
  cases h with
  | inline h => exact .inline (by cases k <;> exact h)
  | file hcss hfile hread => exact .file (by cases k <;> exact hcss) (by cases k <;> exact hfile) hread

theorem answer_without (h : Without k args rest) (hargs : Options.none.read args = .ok (.list o))
    (hsheet : Sheet read o source css) : answer rest read = list (o.clear k) source css :=
  answer_eq (read_without h hargs) (hsheet.clear k)

/-- What the command does with a sheet that came from `source`. -/
structure Answers (read : Text → Except ReadError Text) (args : List Text) (o : Options)
    (source css : Text) : Prop where
  /-- It goes through the session of the sheet. -/
  session : answer args read = Session.output o source css
  /-- Whether the parse fails or not, the events that are listed have a line each, in order. -/
  out : (answer args read).out =
    ((parse css).events.filter fun e => o.only = [] ∨ e.kind ∈ o.only).flatMap (eventLine o)
  /-- How the line of an event reads: as JSON, or in color. -/
  line : ∀ e, EventLine o.json e (eventLine o e)
  code : (answer args read).code = if (parse css).error = .none then 0 else 1
  err : (answer args read).err = (if o.quiet then [] else (warnings css).flatMap warningLine) ++
    failure source (parse css).error
  warning : ∀ w ∈ warnings css,
    warningLine w = "\x1b[33m[Cascara CSS] ⚠ ".toList ++ w.message ++ "\x1b[39m\n".toList
  reported : Reported source (parse css).error (failure source (parse css).error)
  /-- Each setting can be left out of the command line. -/
  without : ∀ k, ∃ rest, Without k args rest
  /-- Asking for kinds loses whole lines. -/
  only : ∀ rest, Without .only args rest → (answer rest read).code = (answer args read).code ∧
    (answer rest read).err = (answer args read).err ∧
    (answer rest read).out = ((parse css).events.map (eventLine o)).flatten ∧
    ∃ lines : List Text, lines.Sublist ((parse css).events.map (eventLine o)) ∧
      (answer args read).out = lines.flatten
  json : ∀ rest, Without .json args rest → (answer rest read).code = (answer args read).code ∧
    (answer rest read).err = (answer args read).err
  /-- Being quiet loses the lines of the warnings. -/
  quiet : ∀ rest, Without .quiet args rest → (answer rest read).code = (answer args read).code ∧
    (answer rest read).out = (answer args read).out ∧
    (answer rest read).err =
      (if o.quiet then (warnings css).flatMap warningLine else []) ++ (answer args read).err

theorem listing_only (h : o.only = []) (es : List Event) : listing o es = (es.map (eventLine o)).flatten := by
  rw [listing, filter_shows h, List.flatMap_def]

/-- What an accepted command line makes the command do with a sheet, and what its settings have to do
with that. -/
theorem answer_sheet (hargs : Options.none.read args = .ok (.list o)) (hsheet : Sheet read o source css) :
    Answers read args o source css := by
  have hanswer := answer_eq hargs hsheet
  have hwithout : ∀ {k rest}, Without k args rest → answer rest read = list (o.clear k) source css :=
    fun h => answer_without h hargs hsheet
  refine ⟨?_, ?_, eventLine_eq o, ?_, ?_, fun w => warningLine_eq, failure_reported source _, ?_, ?_, ?_, ?_⟩
  · rw [hanswer, Session.output_eq]
  · rw [hanswer, list_out, listing]
    congr 1
    refine List.filter_congr fun e _ => ?_
    cases h : o.only <;> simp [shows, h]
  · rw [hanswer, list_eq]
  · rw [hanswer, list_eq]
    rfl
  · intro k
    obtain ⟨cs, hline⟩ := exists_line hargs
    obtain ⟨rest, hrest⟩ := hline.exists_without k
    exact ⟨rest, cs, hline, hrest⟩
  · intro rest h
    rw [hanswer, hwithout h, list_eq, list_eq]
    refine ⟨rfl, rfl, listing_only rfl _, _, (List.filter_sublist (p := shows o)).map _, ?_⟩
    rw [listing, List.flatMap_def]
  · intro rest h
    rw [hanswer, hwithout h, list_eq, list_eq]
    exact ⟨rfl, rfl⟩
  · intro rest h
    rw [hanswer, hwithout h, list_eq, list_eq]
    refine ⟨rfl, rfl, ?_⟩
    cases hquiet : o.quiet <;> simp [notices, clear, hquiet]

/-- A command line for a text that warns, and fails behind the events of its rule. -/
def quietLine : List Text :=
  ["--css=a\x7bb:c\x7d'".toList, "--only".toList, "property".toList, "-q".toList]

def quietOptions : Options := ⟨.none, some "a\x7bb:c\x7d'".toList, false, [.property], true⟩

theorem quietLine_answers : Options.none.read quietLine = .ok (.list quietOptions) ∧
    Sheet (fun _ => .error .missing) quietOptions "<inline>".toList "a\x7bb:c\x7d'".toList ∧
    Answers (fun _ => .error .missing) quietLine quietOptions "<inline>".toList "a\x7bb:c\x7d'".toList := by
  have hline : Line [.css "a\x7bb:c\x7d'".toList, .only .property, .quiet] quietLine :=
    .cons (.cssAttached _) (.cons (.only .property) (.cons .letter .nil))
  have hargs : Options.none.read quietLine = .ok (.list quietOptions) := (read_line hline _).trans rfl
  have hsheet : Sheet (fun _ => .error .missing) quietOptions "<inline>".toList "a\x7bb:c\x7d'".toList :=
    .inline rfl
  exact ⟨hargs, hsheet, answer_sheet hargs hsheet⟩

end Command
end Stylesheet
