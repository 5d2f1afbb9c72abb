import ProbeScript.CommandLine.Run
import ProbeScript.Proofs.Message
import ProbeScript.Proofs.Prompt

/-! Checking files, one after the other. What is written is what the files before the first bad one
hold, and no file after it is looked at. To ask for the course of reading changes nothing but what
is written of errors. -/
namespace ProbeScript.CommandLine

/-- Why a file is not shown. -/
inductive Refusal
  /-- Its text is at fault. -/
  | diagnosed (d : Diagnostic)
  | escaped (e : Escape)

namespace Refusal

def ofShowError (e : ShowError) : Refusal :=
  match e.diagnostic? with
  | some d => diagnosed d
  | none => escaped (.unshown e)

/-- How a run ends with the file. -/
def ending : Refusal → Ending
  | diagnosed _ => .status 1
  | escaped e => .escape e

def errors (name : Text) : Refusal → Text
  | diagnosed d => name ++ ": ".toList ++ d.message ++ ['\n']
  | escaped _ => []

end Refusal

/-- What is shown of a file by itself: it is read, decoded, parsed and printed. -/
def check (format : Format) (files : Files) (name : Text) : Except Refusal Text := do
  let bytes ← (files name).mapError fun fault => .escaped (.file fault)
  let source ← match decoded? bytes with
    | some source => .ok source
    | none => .error (.escaped .undecodable)
  (shown format (readScript source)).mapError .ofShowError

/-- What is told of the course of reading a file, if it comes to that. -/
def course (files : Files) (name : Text) : Text :=
  match files name with
  | .error _ => []
  | .ok bytes => ((decoded? bytes).map fun source => Journal.text (Journal.ofScript source)).getD []

variable {format : Format} {files files' : Files} {name t : Text} {names rest before : List Text}
  {ts : List Text} {refusal : Refusal} {debug : Bool}

/-- One file of a run: it is shown before the rest is checked, or it ends the run. -/
private theorem checkFiles_cons : checkFiles debug format files (name :: rest) =
    let log := if debug then course files name else []
    match check format files name with
    | .ok t =>
      let others := checkFiles debug format files rest
      ⟨others.ending, t ++ others.output, log ++ others.errors⟩
    | .error refusal => ⟨refusal.ending, [], log ++ refusal.errors name⟩ := by
  rw [checkFiles, check, course]
  cases files name with
  | error fault =>
    cases debug <;> rfl
  | ok bytes =>
    dsimp only [Except.mapError, bind, Except.bind]
    cases decoded? bytes with
    | none =>
      cases debug <;> rfl
    | some source =>
      dsimp only [Option.map_some, Option.getD_some]
      cases shown format (readScript source) with
      | ok t => rfl
      | error e =>
        dsimp only [Except.mapError, Refusal.ofShowError]
        cases e.diagnostic? with
        | some d => simp only [Refusal.ending, Refusal.errors, List.append_assoc]
        | none => simp only [Refusal.ending, Refusal.errors, List.append_nil]

/-- Files that are all shown leave what is shown of them before what the rest leaves. -/
private theorem checkFiles_append (debug : Bool) (rest : List Text)
    (h : before.map (check format files) = ts.map .ok) :
    checkFiles debug format files (before ++ rest) =
      let others := checkFiles debug format files rest
      ⟨others.ending, ts.flatten ++ others.output,
        (before.flatMap fun name => if debug then course files name else []) ++ others.errors⟩ := by
  induction before generalizing ts with
  | nil =>
    obtain rfl := List.map_eq_nil_iff.1 h.symm
    rfl
  | cons name before ih =>
    obtain ⟨t, ts, rfl, ht, hts⟩ := List.map_eq_cons_iff.1 h.symm
    rw [List.cons_append, checkFiles_cons, ← ht, ih hts.symm]
    simp only [List.flatten_cons, List.flatMap_cons, List.append_assoc]

/-- Either all files are shown, or there is a first that is not. -/
private theorem all_shown_or_refused (format : Format) (files : Files) (names : List Text) :
    (∃ ts : List Text, names.map (check format files) = ts.map .ok) ∨
      ∃ (before ts : List Text) (name : Text) (refusal : Refusal) (later : List Text),
        names = before ++ name :: later ∧ before.map (check format files) = ts.map .ok ∧
        check format files name = .error refusal := by
  induction names with
  | nil => exact .inl ⟨[], rfl⟩
  | cons name names ih =>
    have hcons {t : Text} {ns ts : List Text} (hname : check format files name = .ok t)
        (hts : ns.map (check format files) = ts.map .ok) :
        (name :: ns).map (check format files) = (t :: ts).map .ok := by
      rw [List.map_cons, List.map_cons, hname, hts]
    cases hname : check format files name with
    | error refusal => exact .inr ⟨[], [], name, refusal, names, rfl, rfl, hname⟩
    | ok t =>
      rcases ih with ⟨ts, hts⟩ | ⟨before, ts, name', refusal, later, rfl, hts, hrefusal⟩
      · exact .inl ⟨t :: ts, hcons hname hts⟩
      · exact .inr ⟨name :: before, t :: ts, name', refusal, later, rfl, hcons hname hts, hrefusal⟩

/-- What a file holds decides what is shown of it. -/
private theorem check_congr (h : files name = files' name) :
    check format files name = check format files' name := by
  rw [check, check, h]

/-- The text that a file holds. -/
def Holds (files : Files) (name source : Text) : Prop :=
  ∃ bytes, files name = .ok bytes ∧ decoded? bytes = some source

/-- Why a file is not shown, step by step. -/
inductive Refuses (format : Format) (files : Files) (name : Text) : Refusal → Prop
  | unread {fault : FileFault} : files name = .error fault →
      Refuses format files name (.escaped (.file fault))
  | undecoded {bytes : ByteArray} : files name = .ok bytes → decoded? bytes = none →
      Refuses format files name (.escaped .undecodable)
  | unparsed {source : Text} {e : ReadError} : Holds files name source →
      readScript source = .error e → Refuses format files name (.ofShowError (.read e))
  | unprinted {source : Text} {n : Node} {e : PrintError} : Holds files name source →
      readScript source = .ok n → format.text n = .error e →
      Refuses format files name (.escaped (.unshown (.print e)))

private theorem check_of_holds {source : Text} (h : Holds files name source) :
    check format files name = (shown format (readScript source)).mapError .ofShowError := by
  obtain ⟨bytes, hfile, hdecoded⟩ := h
  rw [check, hfile]
  dsimp only [Except.mapError, bind, Except.bind]
  rw [hdecoded]

private theorem refuses_of_check (h : check format files name = .error refusal) :
    Refuses format files name refusal := by
  cases hfile : files name with
  | error fault =>
    rw [check, hfile] at h
    obtain rfl := Except.error.inj h
    exact .unread hfile
  | ok bytes =>
    cases hdecoded : decoded? bytes with
    | none =>
      rw [check, hfile] at h
      dsimp only [Except.mapError, bind, Except.bind] at h
      rw [hdecoded] at h
      obtain rfl := Except.error.inj h
      exact .undecoded hfile hdecoded
    | some source =>
      have hholds : Holds files name source := ⟨bytes, hfile, hdecoded⟩
      rw [check_of_holds hholds] at h
      cases hshown : shown format (readScript source) with
      | ok t =>
        rw [hshown] at h
        cases h
      | error e =>
        rw [hshown] at h
        obtain rfl := Except.error.inj h
        rcases shown_eq_error_iff.1 hshown with ⟨e', he', rfl⟩ | ⟨n, e', hn, he', rfl⟩
        · exact .unparsed hholds he'
        · exact .unprinted hholds hn he'

/-- What is said of a file stands on one line. -/
private theorem newline_not_mem_of_check {d : Diagnostic}
    (h : check format files name = .error (.diagnosed d)) : '\n' ∉ d.message := by
  generalize hr : Refusal.diagnosed d = refusal at h
  cases refuses_of_check h with
  | unread | undecoded | unprinted => cases hr
  | @unparsed source e _ hread =>
    cases hd : e.diagnostic? with
    | none =>
      have hshow : (ShowError.read e).diagnostic? = none := hd
      rw [Refusal.ofShowError, hshow] at hr
      cases hr
    | some d' =>
      have hshow : (ShowError.read e).diagnostic? = some d' := hd
      rw [Refusal.ofShowError, hshow] at hr
      obtain rfl := Refusal.diagnosed.inj hr
      exact Goal.newline_not_mem_message (g := .script) hread hd

/-- The course of reading is told in the errors only, ahead of what is told without. -/
private theorem checkFiles_debug (format : Format) (files : Files) (names : List Text) :
    ∃ log, checkFiles true format files names =
      let plain := checkFiles false format files names
      ⟨plain.ending, plain.output, log ++ plain.errors⟩ := by
  induction names with
  | nil => exact ⟨[], rfl⟩
  | cons name names ih =>
    obtain ⟨log, hlog⟩ := ih
    rw [checkFiles_cons, checkFiles_cons]
    cases check format files name with
    | error refusal => exact ⟨course files name, rfl⟩
    | ok t =>
      refine ⟨course files name ++ log, ?_⟩
      simp only [hlog, if_true, Bool.false_eq_true, if_false, List.nil_append, List.append_assoc]

private theorem checkFiles_of_shown (h : names.map (check format files) = ts.map .ok) :
    checkFiles false format files names = ⟨.status 0, ts.flatten, []⟩ := by
  have happend := checkFiles_append false [] h
  rw [List.append_nil] at happend
  rw [happend]
  simp [checkFiles]

/-- The first file that is not shown ends the run, and what comes after it does not matter. -/
private theorem checkFiles_of_refused (later : List Text)
    (h : before.map (check format files) = ts.map .ok)
    (hname : check format files name = .error refusal) :
    checkFiles false format files (before ++ name :: later) =
      ⟨refusal.ending, ts.flatten, refusal.errors name⟩ := by
  rw [checkFiles_append false _ h, checkFiles_cons, hname]
  simp

/-! What the words ask for. -/

/-- The request that arguments make. -/
def Request.ofArguments (args : List Argument) : Request where
  debug := !(Argument.values .debug args).isEmpty
  format := match Argument.values .format args with
    | some f :: _ => f
    | _ => "tree".toList
  scripts := args.filterMap (·.script?)

variable {words : List Text} {r : Request}

private theorem request?_of_readWords {args : List Argument}
    (h : readWords Flag.known words = .ok args) :
    request? words = if args.any (·.isHelp) then .ok none
      else if Argument.fits args then .ok (some (.ofArguments args)) else .error .unfitting := by
  rw [request?, h]
  cases hhelp : args.any (·.isHelp) with
  | true =>
    simp only [bind, Except.bind, hhelp]
    rfl
  | false =>
    cases hfits : Argument.fits args with
    | true =>
      simp only [bind, Except.bind, hhelp, hfits]
      rfl
    | false =>
      simp only [bind, Except.bind, hhelp, hfits]
      rfl

theorem request?_eq_ok_some_iff : request? words = .ok (some r) ↔
    ∃ args, readWords Flag.known words = .ok args ∧ args.any (·.isHelp) = false ∧
      Argument.fits args = true ∧ r = .ofArguments args := by
  cases hargs : readWords Flag.known words with
  | error e =>
    rw [request?, hargs]
    exact ⟨nofun, nofun⟩
  | ok args =>
    rw [request?_of_readWords hargs]
    constructor
    · intro h
      split_ifs at h with hhelp hfits
      · cases h
      · cases h
        exact ⟨args, rfl, eq_false_of_ne_true hhelp, hfits, rfl⟩
    · rintro ⟨_, ⟨⟩, hhelp, hfits, rfl⟩
      rw [hhelp, hfits]
      rfl

/-- A word that is no option. -/
def IsName (word : Text) : Prop := ['-'] <+: word → word = ['-']

instance (word : Text) : Decidable (IsName word) := inferInstanceAs (Decidable (_ → _))

private theorem readWords_names {flags : List Flag} (h : ∀ name ∈ names, IsName name) :
    readWords flags names = .ok (names.map .script) := by
  induction names with
  | nil => rfl
  | cons name names ih =>
    obtain ⟨hname, hnames⟩ := List.forall_mem_cons.1 h
    have hshort : (['-'].isPrefixOf name && name != ['-']) = false := by
      by_contra hne
      rw [Bool.not_eq_false, Bool.and_eq_true, List.isPrefixOf_iff_prefix, bne_iff_ne] at hne
      exact hne.2 (hname hne.1)
    have hlong : "--".toList.isPrefixOf name = false := by
      by_contra hne
      rw [Bool.not_eq_false, List.isPrefixOf_iff_prefix] at hne
      obtain ⟨u, rfl⟩ := hne
      cases hname ⟨'-' :: u, rfl⟩
    have hend : (name == "--".toList) = false := by
      by_contra hne
      rw [Bool.not_eq_false, beq_iff_eq] at hne
      rw [hne] at hlong
      cases hlong
    rw [readWords, hend, hlong, hshort, ih hnames]
    rfl

private theorem readWords_debug (words : List Text) :
    readWords Flag.known ("--debug".toList :: words) =
    (readWords Flag.known words).map (.flag .debug none :: ·) := by
  rw [readWords]
  rfl

private theorem readWords_format (title : Text) (words : List Text) :
    readWords Flag.known (("--format=".toList ++ title) :: words) =
      (readWords Flag.known words).map (.flag .format (some title) :: ·) := by
  rw [readWords]
  rfl

private theorem values_cons_flag (o p : Flag) (v : Option Text) (args : List Argument) :
    Argument.values o (.flag p v :: args) =
      if p == o then v :: Argument.values o args else Argument.values o args := by
  rw [Argument.values, List.filterMap_cons]
  dsimp only
  split_ifs <;> rfl

private theorem values_map_script (o : Flag) (names : List Text) :
    Argument.values o (names.map .script) = [] := by
  rw [Argument.values, List.filterMap_map]
  exact List.filterMap_eq_nil_iff.2 fun _ _ => rfl

/-- Asked for with an option or without, the scripts are the names. -/
private theorem request?_format (title : Text) (h : ∀ name ∈ names, IsName name) :
    request? (("--format=".toList ++ title) :: names) = .ok (some ⟨false, title, names⟩) := by
  have hread := readWords_format title names
  rw [readWords_names h] at hread
  refine request?_eq_ok_some_iff.2 ⟨_, hread, ?_, ?_, ?_⟩
  · rw [List.any_cons, List.any_map]
    exact List.any_eq_false.2 fun _ _ => Bool.false_ne_true
  · rw [Argument.fits, Bool.and_eq_true, Bool.and_eq_true, List.all_cons, List.all_map,
      values_cons_flag, values_cons_flag, values_map_script, values_map_script]
    exact ⟨⟨List.all_eq_true.2 fun _ _ => rfl, rfl⟩, rfl⟩
  · rw [Request.ofArguments, values_cons_flag, values_cons_flag, values_map_script,
      values_map_script, List.filterMap_cons_none rfl, List.filterMap_map]
    exact congrArg (Request.mk false title) List.filterMap_some.symm

private theorem request?_debug (h : request? words = .ok (some r)) (hdebug : r.debug = false) :
    request? ("--debug".toList :: words) = .ok (some { r with debug := true }) := by
  obtain ⟨args, hargs, hhelp, hfits, rfl⟩ := request?_eq_ok_some_iff.1 h
  have hread := readWords_debug words
  rw [hargs] at hread
  refine request?_eq_ok_some_iff.2 ⟨_, hread, hhelp, ?_, ?_⟩
  · have hnone : Argument.values .debug args = [] := by
      rw [Request.ofArguments, Bool.not_eq_false', List.isEmpty_iff] at hdebug
      exact hdebug
    have hvalues : Argument.values .debug (.flag .debug none :: args) = [none] :=
      congrArg (none :: ·) hnone
    rw [Argument.fits, Bool.and_eq_true, Bool.and_eq_true] at hfits ⊢
    refine ⟨hfits.1, ?_⟩
    rw [hvalues]
    rfl
  · rfl

/-- What a command line leaves, unless it starts the prompt. -/
def outcome? (files : Files) (words : List Text) : Option Outcome :=
  match start words with
  | .finished outcome => some outcome
  | .files debug format names => some (checkFiles debug format files names)
  | .prompt .. => none

private theorem start_of_request (h : request? words = .ok (some r))
    (hformat : Format.ofTitle? r.format = some format) (hscripts : r.scripts ≠ []) :
    start words = .files r.debug format r.scripts := by
  rw [start, h]
  simp only [hformat]
  rw [if_neg (List.isEmpty_iff.not.2 hscripts)]

private theorem start_of_unknown (h : request? words = .ok (some r))
    (hformat : Format.ofTitle? r.format = none) :
    start words =
      .finished ⟨.status 2, [], "Unknown format: ".toList ++ r.format ++ ['\n']⟩ := by
  rw [start, h]
  simp only [hformat]

/-- Checking files. A format that is not known is told of before any file is looked at. Otherwise
the files are shown in order, up to the first that cannot be read, decoded, parsed or printed. What
is written is what is shown of the files before it. Without such a file the run is a success; with
one it fails, with one line on the errors or by an escape, and no later file matters. To ask for the
course of reading puts it ahead of the errors and changes nothing else. -/
theorem files_checked (files : Files) :
    (∀ title names, (∀ name ∈ names, IsName name) →
      request? (("--format=".toList ++ title) :: names) = .ok (some ⟨false, title, names⟩)) ∧
    ∀ words r, request? words = .ok (some r) → r.debug = false →
      request? ("--debug".toList :: words) = .ok (some { r with debug := true }) ∧
      ∀ told, request? told = .ok (some { r with debug := true }) →
        (Format.ofTitle? r.format = none → ∀ ws ∈ [words, told], start ws =
          .finished ⟨.status 2, [], "Unknown format: ".toList ++ r.format ++ ['\n']⟩) ∧
        ∀ format, Format.ofTitle? r.format = some format → r.scripts ≠ [] →
          ∃ plain log, outcome? files words = some plain ∧
            outcome? files told = some ⟨plain.ending, plain.output, log ++ plain.errors⟩ ∧
            ((∃ ts : List Text, r.scripts.map (check format files) = ts.map .ok ∧
                plain = ⟨.status 0, ts.flatten, []⟩) ∨
              ∃ (before ts : List Text) (name : Text) (refusal : Refusal) (later : List Text),
                r.scripts = before ++ name :: later ∧
                before.map (check format files) = ts.map .ok ∧
                check format files name = .error refusal ∧ Refuses format files name refusal ∧
                ((∃ d, refusal = .diagnosed d ∧ '\n' ∉ d.message ∧ plain =
                    ⟨.status 1, ts.flatten, name ++ ": ".toList ++ d.message ++ ['\n']⟩) ∨
                  ∃ e, refusal = .escaped e ∧ plain = ⟨.escape e, ts.flatten, []⟩) ∧
                ∀ files', (∀ name' ∈ before ++ [name], files' name' = files name') →
                  outcome? files' words = some plain) := by
  refine ⟨fun title names h => request?_format title h, fun words r h hdebug =>
    ⟨request?_debug h hdebug, fun told htold =>
      ⟨fun hformat => ?_, fun format hformat hscripts => ?_⟩⟩⟩
  · have hunknown := start_of_unknown htold hformat
    exact List.forall_mem_cons.2 ⟨start_of_unknown h hformat, List.forall_mem_singleton.2 hunknown⟩
  have hwords (files' : Files) : outcome? files' words =
      some (checkFiles false format files' r.scripts) := by
    rw [outcome?, start_of_request h hformat hscripts, hdebug]
  have htold' : outcome? files told = some (checkFiles true format files r.scripts) := by
    rw [outcome?, start_of_request htold hformat hscripts]
  obtain ⟨log, hlog⟩ := checkFiles_debug format files r.scripts
  refine ⟨_, log, hwords files, htold'.trans (congrArg some hlog), ?_⟩
  rcases all_shown_or_refused format files r.scripts with
    ⟨ts, hts⟩ | ⟨before, ts, name, refusal, later, hsplit, hts, hname⟩
  · exact .inl ⟨ts, hts, checkFiles_of_shown hts⟩
  rw [hsplit] at hwords ⊢
  have hplain := checkFiles_of_refused later hts hname
  refine .inr ⟨before, ts, name, refusal, later, rfl, hts, hname, refuses_of_check hname, ?_,
    fun files' hfiles => ?_⟩
  · rw [hplain]
    cases refusal with
    | diagnosed d => exact .inl ⟨d, rfl, newline_not_mem_of_check hname, rfl⟩
    | escaped e => exact .inr ⟨e, rfl, rfl⟩
  · obtain ⟨hbefore, hlast⟩ := List.forall_mem_append.1 hfiles
    have hname' := (check_congr (hlast name (List.mem_singleton_self name))).trans hname
    have hts' : before.map (check format files') = ts.map .ok := by
      rw [← hts]
      exact List.map_congr_left fun name' hmem => check_congr (hbefore name' hmem)
    rw [hwords files', hplain, checkFiles_of_refused later hts' hname']

/-- A good file, a bad one and one that is missing. -/
theorem files_checked_second :
    let files : Files := fun name =>
      if name = ['a'] then .ok "p\x7bf();\x7d".toUTF8
      else if name = ['b'] then .ok "/".toUTF8 else .error .missing
    let words := ["--format=source".toList, ['a'], ['b'], ['c']]
    let output := "p \x7b\n    f();\n\x7d\n".toList
    let errors := "b: Unexpected '/' at line 1, column 1 (expected one of: PROBE_SPEC)\n".toList
    outcome? files words = some ⟨.status 1, output, errors⟩ ∧
      ∃ log, outcome? files ("--debug".toList :: words) =
        some ⟨.status 1, output, log ++ errors⟩ := by
  intro files words output errors
  have hgood : check .source files ['a'] = .ok output := by
    have hholds : Holds files ['a'] "p\x7bf();\x7d".toList := ⟨_, rfl, by decide +kernel⟩
    have hkept : Segment.Kept "p\x7bf();\x7d".toList := .word (Text.forall_mem_of_all (by decide))
    let call : Phrase.Statement := .call (.bare ⟨2, ['f']⟩ ⟨3, ['(']⟩ ⟨4, [')']⟩) ⟨5, [';']⟩
    let d : Goal.script.Phrase :=
      (⟨⟨⟨0, ['p']⟩, none, ⟨1, ['\x7b']⟩, call, [], ⟨6, ['\x7d']⟩⟩, []⟩ : Phrase.Script)
    have hread := Goal.read_of_kept (g := .script) (d := d) hkept rfl rfl
    have hshown : shown .source (Goal.script.read "p\x7bf();\x7d".toList) = .ok output :=
      shown_eq_ok_iff.2 ⟨_, output, hread, rfl, by decide +kernel⟩
    exact (check_of_holds hholds).trans (congrArg (Except.mapError Refusal.ofShowError) hshown)
  have hbad : check .source files ['b'] = .error (.diagnosed
      (.ofStop "/".toList 0 (Phrase.Partial.waiting (.probeDue [])))) := by
    have hholds : Holds files ['b'] "/".toList := ⟨_, rfl, by decide +kernel⟩
    have hblanked : Text.blanked "/".toList = .ok "/".toList :=
      Text.blanked_eq_ok_iff.2 ⟨[.plain '/'], .more rfl (.done []), rfl⟩
    have hread := Goal.read_of_error (g := .script) (i := 0) (p := .probeDue []) hblanked rfl
    rw [check_of_holds hholds]
    exact congrArg (fun r => (shown .source r).mapError Refusal.ofShowError) hread
  have hmessage : (Diagnostic.ofStop "/".toList 0 (Phrase.Partial.waiting (.probeDue []))).message =
      "Unexpected '/' at line 1, column 1 (expected one of: PROBE_SPEC)".toList := by decide +kernel
  obtain ⟨hformat, hrun⟩ := files_checked files
  have hr : request? words = .ok (some ⟨false, "source".toList, [['a'], ['b'], ['c']]⟩) :=
    hformat "source".toList _ (by decide)
  obtain ⟨htold, hall⟩ := hrun words _ hr rfl
  obtain ⟨plain, log, hplain, htold, hcases⟩ :=
    (hall _ htold).2 .source (by decide) (List.cons_ne_nil _ _)
  have hshown {ns ts : List Text} (h : ns.map (check .source files) = ts.map .ok) : ['b'] ∉ ns := by
    intro hmem
    have himage := List.mem_map_of_mem (f := check .source files) hmem
    rw [h, hbad] at himage
    obtain ⟨t, -, ht⟩ := List.mem_map.1 himage
    cases ht
  have houtcome : plain = ⟨.status 1, output, errors⟩ := by
    rcases hcases with
      ⟨ts, hts, -⟩ | ⟨before, ts, name, refusal, later, hsplit, hts, hname, -, hend, -⟩
    · exact absurd (by decide) (hshown hts)
    match before, hsplit with
    | [], hsplit =>
      cases hsplit
      cases hgood.symm.trans hname
    | _ :: _ :: _, hsplit =>
      obtain ⟨rfl, -⟩ := List.cons.inj (List.cons.inj hsplit).2
      exact absurd (List.mem_cons_of_mem _ List.mem_cons_self) (hshown hts)
    | [_], hsplit =>
      cases hsplit
      cases hbad.symm.trans hname
      obtain ⟨t, ts, rfl, ht, hnil⟩ := List.map_eq_cons_iff.1 hts.symm
      obtain rfl := List.map_eq_nil_iff.1 hnil
      cases ht.trans hgood
      obtain ⟨d, ⟨⟩, -, rfl⟩ | ⟨e, ⟨⟩, -⟩ := hend
      rw [hmessage, List.flatten_singleton]
      decide +kernel
  rw [houtcome] at hplain htold
  exact ⟨hplain, log, htold⟩

end ProbeScript.CommandLine
