import BooleanSearch.Proofs.BuiltParsers
import BooleanSearch.Proofs.ByteOrder

/-!
# Registrations

A catalog begins with the built-in makers and is changed by registrations, which put a maker under
a name. After any of them, in any order, it lists each name once, in the order of bytes, and the
maker under a name is the one that was put there last. Whether a configuration can be used is then
decided by the two makers that it names.
-/

namespace BooleanSearch

namespace Named

variable {α : Type}

/-- The thing that a list gives last under a name. -/
def latest? (es : List (Text × α)) (name : Text) : Option α := find? es.reverse name

structure Records (c : Named α) (es : List (Text × α)) : Prop where
  sorted : c.names.Pairwise (· < ·)
  find? (name : Text) : c.find? name = latest? es name

/-! ### Steps -/

private theorem names_cons (e : Text × α) (c : Named α) : names (e :: c) = e.1 :: names c := rfl

private theorem find?_cons (e : Text × α) (c : Named α) (name : Text) :
    find? (e :: c) name = if e.1 = name then some e.2 else find? c name := by
  by_cases h : e.1 = name <;> simp [find?, h]

theorem find?_insert (name : Text) (a : α) (c : Named α) (other : Text) :
    find? (insert name a c) other = if name = other then some a else find? c other := by
  induction c with
  | nil => rw [insert, find?_cons]
  | cons e c ih =>
    rw [insert]
    by_cases hname : e.1 = name
    · rw [if_pos hname, find?_cons, find?_cons, hname]
      split_ifs <;> rfl
    -- the thing comes before the table or into the rest of it; either way the first entry stays
    · have hrest : find? (e :: insert name a c) other =
          if name = other then some a else find? (e :: c) other := by
        rw [find?_cons, ih, find?_cons]
        split_ifs with hfirst hother
        · exact absurd (hfirst.trans hother.symm) hname
        all_goals rfl
      rw [if_neg hname]
      by_cases hle : Text.le name e.1 = true
      · rw [if_pos hle, find?_cons]
      · rw [if_neg hle, hrest]

theorem mem_names_insert {name other : Text} {a : α} {c : Named α} :
    other ∈ names (insert name a c) ↔ other = name ∨ other ∈ names c := by
  induction c with
  | nil => simp [insert, names]
  | cons e c ih =>
    rw [insert]
    split_ifs with hname hle
    · rw [names_cons, names_cons, List.mem_cons, List.mem_cons, hname, or_self_left]
    · rw [names_cons, List.mem_cons]
    · rw [names_cons, names_cons, List.mem_cons, List.mem_cons, ih, or_left_comm]

theorem sorted_insert {c : Named α} (h : (names c).Pairwise (· < ·)) (name : Text) (a : α) :
    (names (insert name a c)).Pairwise (· < ·) := by
  induction c with
  | nil => exact List.pairwise_singleton _ _
  | cons e c ih =>
    obtain ⟨hfirst, hrest⟩ := List.pairwise_cons.mp h
    rw [insert]
    split_ifs with hname hle
    · subst hname
      exact h
    · have hlt : name < e.1 := lt_of_le_of_ne (Text.le_iff.mp hle) (Ne.symm hname)
      refine List.pairwise_cons.mpr ⟨fun n hn => ?_, h⟩
      rcases List.mem_cons.mp hn with rfl | hn
      · exact hlt
      · exact lt_trans hlt (hfirst n hn)
    · have hlt : e.1 < name := not_le.mp fun hle' => hle (Text.le_iff.mpr hle')
      refine List.pairwise_cons.mpr ⟨fun n hn => ?_, ih hrest⟩
      rcases mem_names_insert.mp hn with rfl | hn
      · exact hlt
      · exact hfirst n hn

theorem latest?_concat (es : List (Text × α)) (name : Text) (a : α) (other : Text) :
    latest? (es ++ [(name, a)]) other = if name = other then some a else latest? es other := by
  rw [latest?, List.reverse_concat, find?_cons]
  rfl

theorem Records.nil : Records ([] : Named α) [] := ⟨.nil, fun _ => rfl⟩

theorem Records.insert {c : Named α} {es : List (Text × α)} (h : c.Records es) (name : Text)
    (a : α) : (Named.insert name a c).Records (es ++ [(name, a)]) where
  sorted := sorted_insert h.sorted name a
  find? other := by rw [find?_insert, latest?_concat, h.find?]

/-! ### What a table answers -/

private theorem find?_eq_none_iff {c : Named α} {name : Text} :
    c.find? name = none ↔ name ∉ c.names := by
  rw [find?, Option.map_eq_none_iff, List.find?_eq_none]
  simp only [decide_eq_true_eq, names, List.mem_map, not_exists, not_and]

theorem latest?_eq_none_iff {es : List (Text × α)} {name : Text} :
    latest? es name = none ↔ ∀ a, (name, a) ∉ es := by
  rw [latest?, find?_eq_none_iff]
  simp [names]

theorem Records.mem_names {c : Named α} {es : List (Text × α)} (h : c.Records es) (name : Text) :
    name ∈ c.names ↔ ∃ a, (name, a) ∈ es := by
  rw [← not_iff_not, ← find?_eq_none_iff, h.find?, latest?_eq_none_iff, not_exists]

theorem make_eq_ok_iff {c : Named (Maker α)} {unknown : Text → NameError} {name : Text}
    {conf : Configuration} {a : α} :
    c.make unknown name conf = .ok a ↔ ∃ m, c.find? name = some m ∧ m conf = .ok a := by
  rw [make]
  cases c.find? name with
  | none => simp
  | some m => simp [mapError_eq_ok]

theorem make_eq_unknown_iff {c : Named (Maker α)} {unknown : Text → NameError} {name : Text}
    {conf : Configuration} :
    c.make unknown name conf = .error (.unknownName (unknown name)) ↔ c.find? name = none := by
  rw [make]
  cases c.find? name with
  | none => simp
  | some m => cases h : m conf <;> simp [h, Except.mapError]

/-- What a table of makers answers after the registrations `es`, where `get` makes the thing that a
configuration names. -/
structure Registered (c : Named (Maker α)) (get : Configuration → Except SetupError α)
    (named : Configuration → Text) (unknown : Text → NameError) (es : List (Text × Maker α)) :
    Prop where
  /-- Each name is listed once, and the names are in the order of bytes. -/
  sorted : c.names.Pairwise fun m n => m.bytes < n.bytes
  /-- The listed names are the registered ones. -/
  mem_names (name : Text) : name ∈ c.names ↔ ∃ m, (name, m) ∈ es
  /-- A name is not known exactly if it is not registered. -/
  unknown_iff (d : Configuration) :
    get d = .error (.unknownName (unknown (named d))) ↔ ∀ m, (named d, m) ∉ es
  /-- The maker that is registered last is used. -/
  latest (d : Configuration) (m : Maker α) :
    latest? es (named d) = some m → get d = (m d).mapError .crash

theorem Records.registered {c : Named (Maker α)} {es : List (Text × Maker α)} (h : c.Records es)
    (named : Configuration → Text) (unknown : Text → NameError) :
    c.Registered (fun d => c.make unknown (named d) d) named unknown es where
  sorted := h.sorted.imp Text.bytes_lt
  mem_names := h.mem_names
  unknown_iff d := by rw [make_eq_unknown_iff, h.find?, latest?_eq_none_iff]
  latest d m hm := by rw [make, h.find?, hm]

end Named

/-- A registration of a maker under a name. -/
inductive Registration (L F : Type) where
  | language (name : Text) (m : Maker L)
  | formatter (name : Text) (m : Maker F)

namespace Registration

variable {L F : Type}

def language? : Registration L F → Option (Text × Maker L)
  | language name m => some (name, m)
  | formatter _ _ => none

def formatter? : Registration L F → Option (Text × Maker F)
  | language _ _ => none
  | formatter name m => some (name, m)

end Registration

namespace Catalog

variable {L F : Type} {k : Catalog L F}

def register (k : Catalog L F) : Registration L F → Catalog L F
  | .language name m => k.addLanguage name m
  | .formatter name m => k.addFormatter name m

def registerAll (k : Catalog L F) (rs : List (Registration L F)) : Catalog L F :=
  rs.foldl register k

/-! ### Runs -/

theorem records_registerAll {ls : List (Text × Maker L)} {fs : List (Text × Maker F)}
    (hl : k.languages.Records ls) (hf : k.formatters.Records fs) (rs : List (Registration L F)) :
    (k.registerAll rs).languages.Records (ls ++ rs.filterMap Registration.language?) ∧
      (k.registerAll rs).formatters.Records (fs ++ rs.filterMap Registration.formatter?) := by
  -- what has been registered so far is part of what the next registrations begin with
  induction rs generalizing k ls fs with
  | nil => simpa [registerAll] using And.intro hl hf
  | cons r rs ih =>
    cases r with
    | language name m =>
      have hrest := ih (k := k.addLanguage name m) (hl.insert name m) hf
      rw [List.append_assoc] at hrest
      exact hrest
    | formatter name m =>
      have hrest := ih (k := k.addFormatter name m) hl (hf.insert name m)
      rw [List.append_assoc fs] at hrest
      exact hrest

def builtinLanguages (language : Language → L) : List (Text × Maker L) :=
  [("boolean".toList, fun c => (LanguageMaker.builtin c).map language)]

def builtinFormatters (format : OutputFormat → F) : List (Text × Maker F) :=
  ["text", "ruleset", "mongo"].map fun name =>
    (name.toList, fun c => (FormatMaker.builtin c).map format)

theorem standardAs_eq (language : Language → L) (format : OutputFormat → F) :
    standardAs language format = registerAll ⟨[], []⟩
      ((builtinLanguages language).map (fun e => .language e.1 e.2) ++
        (builtinFormatters format).map fun e => .formatter e.1 e.2) :=
  rfl

theorem records_standardAs (language : Language → L) (format : OutputFormat → F) :
    (standardAs language format).languages.Records (builtinLanguages language) ∧
      (standardAs language format).formatters.Records (builtinFormatters format) := by
  rw [standardAs_eq]
  exact records_registerAll (k := ⟨[], []⟩) .nil .nil _

/-! ### Setting up a parser -/

private theorem relabel_eq_ok_iff {α : Type} {label : NameError → SetupError}
    {x : Except SetupError α} {a : α} : relabel label x = .ok a ↔ x = .ok a := by
  fun_cases relabel label x <;> simp

private theorem relabel_eq_crash_iff {α : Type} {label : NameError → SetupError}
    (hlabel : ∀ e crash, label e ≠ .crash crash) {x : Except SetupError α} {crash : Crash} :
    relabel label x = .error (.crash crash) ↔ x = .error (.crash crash) := by
  fun_cases relabel label x <;> simp_all

theorem verify_eq_ok_iff {c : Option Configuration} :
    k.verify c = .ok () ↔ ∃ d l f, c = some d ∧ d.check = .ok () ∧ k.language d = .ok l ∧
      k.formatter d = .ok f := by
  cases c with
  | none => simp [verify]
  | some d =>
    simp only [verify, bind_eq_ok, mapError_eq_ok, relabel_eq_ok_iff, Option.some.injEq]
    constructor
    · rintro ⟨⟨⟩, hcheck, l, hl, f, hf, _⟩
      exact ⟨d, l, f, rfl, hcheck, hl, hf⟩
    · rintro ⟨_, l, f, rfl, hcheck, hl, hf⟩
      exact ⟨(), hcheck, l, hl, f, hf, trivial⟩

theorem build_eq_ok_iff {c : Option Configuration} {e : Engine L F} :
    Engine.build k c = .ok e ↔ ∃ d l f, c = some d ∧ d.check = .ok () ∧ k.language d = .ok l ∧
      k.formatter d = .ok f ∧ ⟨l, f, d.defaultFields⟩ = e := by
  constructor
  · intro h
    obtain ⟨⟨⟩, hverify, h⟩ := bind_eq_ok.mp h
    obtain ⟨d, l, f, rfl, hcheck, hl, hf⟩ := verify_eq_ok_iff.mp hverify
    obtain ⟨l', hl', h⟩ := bind_eq_ok.mp h
    obtain ⟨f', hf', h⟩ := bind_eq_ok.mp h
    exact ⟨d, l', f', rfl, hcheck, hl', hf', Except.ok.inj h⟩
  · rintro ⟨d, l, f, rfl, hcheck, hl, hf, rfl⟩
    refine bind_eq_ok.mpr ⟨(), verify_eq_ok_iff.mpr ⟨d, l, f, rfl, hcheck, hl, hf⟩, ?_⟩
    exact bind_eq_ok.mpr ⟨l, hl, bind_eq_ok.mpr ⟨f, hf, rfl⟩⟩

theorem crash_of_verify {c : Option Configuration} {crash : Crash}
    (h : k.verify c = .error (.crash crash)) :
    ∃ d, c = some d ∧
      (k.language d = .error (.crash crash) ∨ k.formatter d = .error (.crash crash)) := by
  cases c with
  | none => cases h
  | some d =>
    refine ⟨d, rfl, ?_⟩
    rcases bind_eq_error.mp h with hcheck | ⟨_, _, h⟩
    · cases hd : d.check <;> simp [hd, Except.mapError] at hcheck
    rcases bind_eq_error.mp h with hl | ⟨l, _, h⟩
    · exact Or.inl ((relabel_eq_crash_iff (by simp)).mp hl)
    rcases bind_eq_error.mp h with hf | ⟨f, _, h⟩
    · exact Or.inr ((relabel_eq_crash_iff (by simp)).mp hf)
    · cases h

theorem crash_of_build {c : Option Configuration} {crash : Crash}
    (h : Engine.build k c = .error (.crash crash)) :
    ∃ d, c = some d ∧
      (k.language d = .error (.crash crash) ∨ k.formatter d = .error (.crash crash)) := by
  rcases bind_eq_error.mp h with hverify | ⟨_, _, h⟩
  · exact crash_of_verify hverify
  cases c with
  | none => cases h
  | some d =>
    refine ⟨d, rfl, ?_⟩
    rcases bind_eq_error.mp h with hl | ⟨l, _, h⟩
    · exact Or.inl hl
    rcases bind_eq_error.mp h with hf | ⟨f, _, h⟩
    · exact Or.inr hf
    · cases h

/-! ### The built-in makers -/

private theorem find?_shared {α : Type} (ns : List Text) (a : α) (name : Text) :
    Named.find? (ns.map fun n => (n, a)) name = if name ∈ ns then some a else none := by
  induction ns with
  | nil => rfl
  | cons n ns ih =>
    rw [List.map_cons, Named.find?_cons, ih]
    by_cases h : n = name
    · simp [h]
    · simp [h, Ne.symm h]

/-- A table that lists exactly the names that its maker knows fails only where the maker does not
know the name. -/
private theorem make_shared {α β : Type} {built : Configuration → Except NameError α} {f : α → β}
    (ns : List Text) {unknown : Text → NameError} {name : Text} {conf : Configuration}
    (hknown : name ∈ ns → ∃ a, built conf = .ok a)
    (hunknown : name ∉ ns → built conf = .error (unknown name)) :
    Named.make (ns.map fun n => (n, fun c => ((built c).mapError .outOfSync).map f)) unknown name
      conf = ((built conf).map f).mapError .unknownName := by
  rw [Named.make, find?_shared]
  by_cases h : name ∈ ns
  · obtain ⟨a, ha⟩ := hknown h
    rw [if_pos h]
    simp only [ha]
    rfl
  · rw [if_neg h, hunknown h]
    rfl

theorem language_standardAs (language : Language → L) (format : OutputFormat → F)
    (c : Configuration) : (standardAs language format).language c =
      (c.builtinLanguage.map language).mapError .unknownName := by
  refine make_shared ["boolean".toList] ?_ ?_ <;> intro h
  · exact ⟨.boolean, if_pos (List.mem_singleton.mp h)⟩
  · exact if_neg (fun he => h (List.mem_singleton.mpr he))

theorem formatter_standardAs (language : Language → L) (format : OutputFormat → F)
    (c : Configuration) : (standardAs language format).formatter c =
      (c.builtinFormatter.map format).mapError .unknownName := by
  refine make_shared ["mongo".toList, "ruleset".toList, "text".toList] ?_ ?_ <;> intro h
  · simp only [List.mem_cons, List.not_mem_nil, or_false] at h
    rw [Configuration.builtinFormatter]
    split_ifs with htext hruleset hmongo
    · exact ⟨_, rfl⟩
    · exact ⟨_, rfl⟩
    · exact ⟨_, rfl⟩
    · exact absurd h (not_or.mpr ⟨hmongo, not_or.mpr ⟨hruleset, htext⟩⟩)
  · simp only [List.mem_cons, List.not_mem_nil, or_false, not_or] at h
    rw [Configuration.builtinFormatter, if_neg h.2.2, if_neg h.2.1, if_neg h.1]

private theorem mapError_unknownName_ne {α : Type} (x : Except NameError α) (crash : Crash) :
    x.mapError SetupError.unknownName ≠ .error (.crash crash) := by
  cases x <;> simp [Except.mapError]

/-! ### Main results -/

/-- Nothing that a catalog is asked for crashes. -/
structure Safe (k : Catalog L F) : Prop where
  language (c : Configuration) (crash : Crash) : k.language c ≠ .error (.crash crash)
  formatter (c : Configuration) (crash : Crash) : k.formatter c ≠ .error (.crash crash)
  verify (c : Option Configuration) (crash : Crash) : k.verify c ≠ .error (.crash crash)
  build (c : Option Configuration) (crash : Crash) : Engine.build k c ≠ .error (.crash crash)

theorem safe_standardAs (language : Language → L) (format : OutputFormat → F) :
    (standardAs language format).Safe := by
  have hl (c : Configuration) (crash : Crash) :
      (standardAs language format).language c ≠ .error (.crash crash) := by
    rw [language_standardAs]
    exact mapError_unknownName_ne _ crash
  have hf (c : Configuration) (crash : Crash) :
      (standardAs language format).formatter c ≠ .error (.crash crash) := by
    rw [formatter_standardAs]
    exact mapError_unknownName_ne _ crash
  refine ⟨hl, hf, fun c crash h => ?_, fun c crash h => ?_⟩
  · obtain ⟨d, _, h | h⟩ := crash_of_verify h
    · exact hl d crash h
    · exact hf d crash h
  · obtain ⟨d, _, h | h⟩ := crash_of_build h
    · exact hl d crash h
    · exact hf d crash h

/-- What a catalog does after the registrations `ls` of languages and `fs` of formats. -/
structure After (k : Catalog L F) (ls : List (Text × Maker L)) (fs : List (Text × Maker F)) :
    Prop where
  languages : k.languages.Registered k.language Configuration.language .language ls
  formatters : k.formatters.Registered k.formatter Configuration.formatter .formatter fs
  /-- A configuration that is verified has a parser and no other one has. -/
  verify_iff_build (c : Option Configuration) :
    (k.verify c).isOk = true ↔ (Engine.build k c).isOk = true
  /-- The configuration must be there, its settings right, and the makers that are registered last
  under its names must not crash on it. -/
  verify_iff (c : Option Configuration) :
    (k.verify c).isOk = true ↔ ∃ d m l n f, c = some d ∧ d.check = .ok () ∧
      Named.latest? ls d.language = some m ∧ m d = .ok l ∧
      Named.latest? fs d.formatter = some n ∧ n d = .ok f

private theorem isOk_iff {ε α : Type} {x : Except ε α} : x.isOk = true ↔ ∃ a, x = .ok a := by
  cases x <;> simp [Except.isOk, Except.toBool]

theorem After.of_records {ls : List (Text × Maker L)} {fs : List (Text × Maker F)}
    (hl : k.languages.Records ls) (hf : k.formatters.Records fs) : k.After ls fs where
  languages := hl.registered Configuration.language .language
  formatters := hf.registered Configuration.formatter .formatter
  verify_iff_build c := by
    rw [isOk_iff, isOk_iff]
    constructor
    · rintro ⟨⟨⟩, h⟩
      obtain ⟨d, l, f, hd, hcheck, hl, hf⟩ := verify_eq_ok_iff.mp h
      exact ⟨_, build_eq_ok_iff.mpr ⟨d, l, f, hd, hcheck, hl, hf, rfl⟩⟩
    · rintro ⟨e, h⟩
      obtain ⟨d, l, f, hd, hcheck, hl, hf, _⟩ := build_eq_ok_iff.mp h
      exact ⟨(), verify_eq_ok_iff.mpr ⟨d, l, f, hd, hcheck, hl, hf⟩⟩
  verify_iff c := by
    rw [isOk_iff]
    constructor
    · rintro ⟨⟨⟩, h⟩
      obtain ⟨d, l, f, hd, hcheck, hlanguage, hformatter⟩ := verify_eq_ok_iff.mp h
      obtain ⟨m, hm, hml⟩ := Named.make_eq_ok_iff.mp hlanguage
      obtain ⟨n, hn, hnf⟩ := Named.make_eq_ok_iff.mp hformatter
      exact ⟨d, m, l, n, f, hd, hcheck, hl.find? _ ▸ hm, hml, hf.find? _ ▸ hn, hnf⟩
    · rintro ⟨d, m, l, n, f, hd, hcheck, hm, hml, hn, hnf⟩
      have hlanguage : k.language d = .ok l :=
        Named.make_eq_ok_iff.mpr ⟨m, (hl.find? _).trans hm, hml⟩
      have hformatter : k.formatter d = .ok f :=
        Named.make_eq_ok_iff.mpr ⟨n, (hf.find? _).trans hn, hnf⟩
      exact ⟨(), verify_eq_ok_iff.mpr ⟨d, l, f, hd, hcheck, hlanguage, hformatter⟩⟩

/-- The state of a catalog after any registrations, the built-in ones being made before them. Each
kind of maker follows its own registrations alone. Before any other registration nothing crashes. -/
theorem after_registrations (language : Language → L) (format : OutputFormat → F)
    (rs : List (Registration L F)) :
    ((standardAs language format).registerAll rs).After
      (builtinLanguages language ++ rs.filterMap Registration.language?)
      (builtinFormatters format ++ rs.filterMap Registration.formatter?) ∧
    (standardAs language format).Safe := by
  obtain ⟨hl, hf⟩ := records_standardAs language format
  obtain ⟨hls, hfs⟩ := records_registerAll hl hf rs
  exact ⟨.of_records hls hfs, safe_standardAs language format⟩

example : (registerAll .standard [.formatter "mongo".toList FormatMaker.text,
    .formatter "plain".toList FormatMaker.builtin]).verify
      (some { Configuration.standard with formatter := "plain".toList }) =
    .error (.crash (.outOfSync (.formatter "plain".toList))) := by
  rfl

end Catalog

/-! ### Sessions -/

def Change.registration? {F : Type} : Change F → Option (Registration Language F)
  | .addLanguage name m => some (.language name m)
  | .addFormatter name m => some (.formatter name m)
  | _ => none

namespace Session

variable {F : Type}

theorem catalog_apply (s : Session F) (c : Change F) :
    (s.apply c).catalog = s.catalog.registerAll c.registration?.toList := by
  cases c with
  | adopt d => rfl
  | release => rfl
  | update u target =>
    rw [apply, change]
    cases s.position? target with
    | some i => rfl
    | none => cases u.isEmpty <;> rfl
  | addLanguage name m => rfl
  | addFormatter name m => rfl
  | build target =>
    rw [apply]
    split
    · next s' hs' =>
      obtain ⟨_, _, _, _, rfl⟩ := exists_of_change_build hs'
      rfl
    · rfl

theorem catalog_run (s : Session F) (cs : List (Change F)) :
    (s.run cs).catalog = s.catalog.registerAll (cs.filterMap Change.registration?) := by
  induction cs generalizing s with
  | nil => rfl
  | cons c cs ih =>
    have hrest := ih (s.apply c)
    rw [catalog_apply] at hrest
    rw [run, List.foldl_cons, ← run, hrest]
    cases c <;> rfl

end Session

end BooleanSearch
