import BooleanSearch.Proofs.Outcomes
import BooleanSearch.Session

/-!
# What a built parser depends on

A parser keeps the formatter and the default fields it was built with, and follows the configuration
it was built from. Over a session that configuration changes by the settings that are made to it,
whether it is named or at hand; nothing else that happens reaches it.
-/

namespace BooleanSearch

variable {F E : Type}

/-- The answers of a parser that keeps a formatter and default fields and follows a
configuration. -/
structure Parser.Answers [Formatter F E] {n : Nat} (p : Parser n F) (s : Session F)
    (h : n ≤ s.size) (f : F) (fields : List Text) (now : Configuration) : Prop where
  parse (query : Text) : p.parse s query h =
    Query.parse ⟨⟨now.fieldMode, now.maxDepth⟩, now.defaultConnective⟩ query
  format (query : Text) : p.format s query h = do
    let n ← (p.parse s query h).mapError .parse
    (Formatter.write f n).mapError (.format now.formatter)
  toFilter (query : Text) : p.toFilter s query h = do
    let n ← (p.parse s query h).mapError .parse
    (Filter.ofTree fields n).mapError .filter

theorem Engine.exists_of_build {k : Catalog Language F} {c : Configuration} {e : Engine Language F}
    (h : build k (some c) = .ok e) :
    ∃ f, k.formatter c = .ok f ∧ e = ⟨.boolean, f, c.defaultFields⟩ := by
  obtain ⟨_, _, h⟩ := bind_eq_ok.mp h
  obtain ⟨language, _, h⟩ := bind_eq_ok.mp h
  obtain ⟨f, hf, h⟩ := bind_eq_ok.mp h
  exact ⟨f, hf, (Except.ok.inj h).symm⟩

namespace Session

def keepsAtHand : Change F → Bool
  | .adopt _ => false
  | .release => false
  | _ => true

/-- The settings that a change makes to the configuration at a position, which is or is not the one
at hand. -/
def settingsOf (i : Nat) (atHand : Bool) : Change F → List Configuration.Update
  | .update u none => if atHand then [u] else []
  | .update u (some j) => if j = i then [u] else []
  | _ => []

def settingsMade (i : Nat) (atHand : Bool) : List (Change F) → List Configuration.Update
  | [] => []
  | ch :: chs => settingsOf i atHand ch ++ settingsMade i (atHand && keepsAtHand ch) chs

structure Holds (s : Session F) (i : Nat) (atHand : Bool) (c : Configuration) : Prop where
  config : s.configs[i]? = some c
  current : (s.current.map Fin.val == some i) = atHand

/-! ### Steps -/

section

variable {s : Session F} {i : Nat} {atHand : Bool} {c : Configuration}

private theorem Holds.lt_size (h : s.Holds i atHand c) : i < s.size :=
  (Vector.getElem?_eq_some_iff.mp h.config).1

private theorem Holds.settingsOf_update (h : s.Holds i atHand c) (u : Configuration.Update)
    (target : Option Nat) :
    settingsOf i atHand (.update (F := F) u target) =
      if (s.position? target).map Fin.val = some i then [u] else [] := by
  cases target with
  | none =>
    simp [settingsOf, position?, ← h.current]
  | some j =>
    have hi := h.lt_size
    simp only [settingsOf, position?]
    by_cases hj : j < s.size
    · simp [hj]
    · have hne : j ≠ i := by omega
      simp [hj, hne]

private theorem apply_update_of_position {target : Option Nat} {j : Fin s.size}
    (hj : s.position? target = some j) (u : Configuration.Update) :
    s.apply (.update u target) =
      { s with configs := s.configs.set j ((s.configAt j).update u) j.isLt } := by
  simp only [apply, change, hj]

private theorem apply_update_of_no_position {target : Option Nat} (hj : s.position? target = none)
    (u : Configuration.Update) : s.apply (.update u target) = s := by
  simp only [apply, change, hj]
  split
  · next h =>
    split_ifs at h
    exact (Except.ok.inj h).symm
  · rfl

private theorem Holds.update (h : s.Holds i atHand c) (u : Configuration.Update)
    (target : Option Nat) :
    (s.apply (.update u target)).Holds i atHand
      ((settingsOf i atHand (.update (F := F) u target)).foldl Configuration.update c) := by
  rw [h.settingsOf_update]
  cases hj : s.position? target with
  | none =>
    rw [apply_update_of_no_position hj]
    exact h
  | some j =>
    rw [apply_update_of_position hj]
    refine ⟨?_, h.current⟩
    rw [Vector.getElem?_set]
    by_cases hji : j.val = i
    · subst hji
      have hc : s.configAt j = c := by
        have hget := h.config
        rw [Vector.getElem?_eq_getElem j.isLt] at hget
        exact Option.some.inj hget
      simp [hc]
    · simp [hji, h.config]

theorem exists_of_change_build {s' : Session F} {target : Option Nat}
    (h : s.change (.build target) = .ok s') :
    ∃ i f, s.position? target = some i ∧ s.catalog.formatter (s.configAt i) = .ok f ∧
      s' = { s with parser := ⟨⟨.boolean, f, (s.configAt i).defaultFields⟩, i⟩ } := by
  rw [change] at h
  split at h
  · next i hi =>
    obtain ⟨e, he, rfl⟩ := map_eq_ok.mp h
    obtain ⟨f, hf, rfl⟩ := Engine.exists_of_build he
    exact ⟨i, f, hi, hf, rfl⟩
  · cases h

private theorem Holds.build (h : s.Holds i atHand c) (target : Option Nat) :
    (s.apply (.build target)).Holds i atHand c := by
  rw [apply]
  split
  · next s' hs' =>
    obtain ⟨_, _, _, _, rfl⟩ := exists_of_change_build hs'
    exact ⟨h.config, h.current⟩
  · exact h

private theorem Holds.adopt (h : s.Holds i atHand c) (d : Configuration) :
    (s.apply (.adopt d)).Holds i false c := by
  have hi := h.lt_size
  constructor
  · change (s.configs.push d)[i]? = some c
    rw [Vector.getElem?_push, if_neg (by omega), h.config]
  · have hne : s.size ≠ i := by omega
    simpa [apply, change] using hne

/-- What one change makes of a configuration: the settings that concern it, and no more. -/
theorem Holds.apply (h : s.Holds i atHand c) (ch : Change F) :
    (s.apply ch).Holds i (atHand && keepsAtHand ch)
      ((settingsOf i atHand ch).foldl Configuration.update c) := by
  cases ch with
  | adopt d =>
    rw [keepsAtHand, Bool.and_false]
    exact h.adopt d
  | release =>
    rw [keepsAtHand, Bool.and_false]
    exact ⟨h.config, rfl⟩
  | update u target => simpa only [keepsAtHand, Bool.and_true] using h.update u target
  | addLanguage name m =>
    simp only [keepsAtHand, Bool.and_true]
    exact ⟨h.config, h.current⟩
  | addFormatter name m =>
    simp only [keepsAtHand, Bool.and_true]
    exact ⟨h.config, h.current⟩
  | build target =>
    simp only [keepsAtHand, Bool.and_true]
    exact h.build target

/-! ### Runs -/

theorem Holds.run (h : s.Holds i atHand c) (chs : List (Change F)) :
    (s.run chs).configs[i]? =
      some ((settingsMade i atHand chs).foldl Configuration.update c) := by
  induction chs generalizing s atHand c with
  | nil => exact h.config
  | cons ch chs ih =>
    rw [settingsMade, List.foldl_append]
    exact ih (h.apply ch)

end

private theorem size_le_apply (s : Session F) (ch : Change F) : s.size ≤ (s.apply ch).size := by
  rw [apply]
  split
  · next s' hs' =>
    cases ch with
    | adopt d =>
      obtain rfl := Except.ok.inj hs'
      exact Nat.le_succ s.size
    | release =>
      obtain rfl := Except.ok.inj hs'
      exact Nat.le_refl s.size
    | update u target =>
      rw [change] at hs'
      split at hs'
      · obtain rfl := Except.ok.inj hs'
        exact Nat.le_refl s.size
      · split_ifs at hs'
        obtain rfl := Except.ok.inj hs'
        exact Nat.le_refl s.size
    | addLanguage name m =>
      obtain rfl := Except.ok.inj hs'
      exact Nat.le_refl s.size
    | addFormatter name m =>
      obtain rfl := Except.ok.inj hs'
      exact Nat.le_refl s.size
    | build target =>
      obtain ⟨_, _, _, _, rfl⟩ := exists_of_change_build hs'
      exact Nat.le_refl s.size
  · exact Nat.le_refl s.size

theorem size_le_run (s : Session F) (chs : List (Change F)) : s.size ≤ (s.run chs).size := by
  induction chs generalizing s with
  | nil => exact Nat.le_refl s.size
  | cons ch chs ih => exact Nat.le_trans (size_le_apply s ch) (ih (s.apply ch))

private theorem configAt_run (s : Session F) (i : Fin s.size) (chs : List (Change F)) :
    (s.run chs).configAt (i.castLE (size_le_run s chs)) =
      (settingsMade i (s.current == some i) chs).foldl Configuration.update (s.configAt i) := by
  have hstart : s.Holds i (s.current == some i) (s.configAt i) := by
    refine ⟨Vector.getElem?_eq_getElem i.isLt, ?_⟩
    cases s.current with
    | none => rfl
    | some j => simp [Bool.beq_eq_decide_eq, Fin.ext_iff]
  have hi : i.val < (s.run chs).size := Nat.lt_of_lt_of_le i.isLt (size_le_run s chs)
  have hrun := hstart.run chs
  rw [Vector.getElem?_eq_getElem hi] at hrun
  exact Option.some.inj hrun

/-- A parser that is built keeps the formatter and the default fields of that moment. At every later
point it parses by the settings that its configuration has by then, and the format's name in a
report follows them too; of all that happens in between only the settings made to that configuration
count. A build that fails leaves no trace. -/
theorem answers_of_build [Formatter F E] (s : Session F) (target : Option Nat) :
    (∀ s', s.change (.build target) = .ok s' → ∃ i f p,
      s.position? target = some i ∧ s.catalog.formatter (s.configAt i) = .ok f ∧
      s' = { s with parser := p } ∧
      ∀ chs, ∃ h : s.size ≤ (s'.run chs).size, ∃ now,
        (s'.run chs).configAt (i.castLE h) = now ∧
        now = (settingsMade i (s.current == some i) chs).foldl
          Configuration.update (s.configAt i) ∧
        p.Answers (s'.run chs) h f (s.configAt i).defaultFields now) ∧
    ∀ e, s.change (.build target) = .error e →
      ∀ chs, s.run (.build target :: chs) = s.run chs := by
  constructor
  · intro s' h
    obtain ⟨i, f, hi, hf, rfl⟩ := exists_of_change_build h
    refine ⟨i, f, _, hi, hf, rfl, ?_⟩
    intro chs
    let built : Session F :=
      { s with parser := ⟨⟨.boolean, f, (s.configAt i).defaultFields⟩, i⟩ }
    refine ⟨size_le_run built chs, _, rfl, configAt_run built i chs, ?_⟩
    exact ⟨fun _ => rfl, fun _ => rfl, fun _ => rfl⟩
  · intro e h chs
    have hsame : s.apply (.build target) = s := by rw [apply, h]
    rw [run, List.foldl_cons, hsame]
    rfl

theorem answers_of_build_replaced_config :
    (∃ s', (start.run
        [.update { formatter := some "mongo".toList, defaultFields := some ["t".toList] }]).change
          .build = .ok s' ∧
      ∃ (p : Parser 2) (h : 2 ≤ Session.size _), p.Answers
        (s'.run [.update { defaultFields := some [] },
          .addFormatter "mongo".toList FormatMaker.text, .adopt .standard,
          .update { maxDepth := some 9 }, .update { maxDepth := some 1 } (some 0), .build])
        h (.filter ["t".toList]) ["t".toList]
        { Configuration.standard with formatter := "mongo".toList, maxDepth := 1 }) ∧
    ∃ e, (start.run [.update { maxDepth := some 0 }]).change .build = .error e ∧
      ∀ chs, (start.run [.update { maxDepth := some 0 }]).run (.build :: chs) =
        (start.run [.update { maxDepth := some 0 }]).run chs := by
  constructor
  · refine ⟨_, rfl, ?_⟩
    obtain ⟨i, f, p, hi, hf, _, hall⟩ := (answers_of_build (start.run
      [.update { formatter := some "mongo".toList, defaultFields := some ["t".toList] }]) none).1
        _ rfl
    obtain rfl : (0 : Fin 2) = i := Option.some.inj hi
    obtain rfl : .filter ["t".toList] = f := Except.ok.inj hf
    obtain ⟨h, now, _, rfl, hanswers⟩ := hall _
    exact ⟨p, h, hanswers⟩
  · exact ⟨_, rfl, (answers_of_build (start.run [.update { maxDepth := some 0 }]) none).2 _ rfl⟩

end Session

end BooleanSearch
