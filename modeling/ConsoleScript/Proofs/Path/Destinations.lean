import ConsoleScript.CompiledFile
import ConsoleScript.Proofs.Path.Cleaning

/-!
# Where compiled files go

A compiled file goes below the output directory, along the path of its script. Of a path that leads
up, the first level is left out and the others are not, so such a file may end up elsewhere: it is
in the output directory only if its path comes back through the directories that it left.
-/

namespace ConsoleScript.CompiledFile

open ConsoleScript.Path

variable {c script : Text} {cs done : List Text} {rooted : Bool}

/-! ## The path below the output directory -/

def extended : List Text → List Text
  | [] => [extension]
  | [c] => [c ++ extension]
  | c :: d :: cs => c :: extended (d :: cs)

/-- What counts of the path of a script. From the root, it is the last component; else a first
component that leads up is left out if there are others. -/
def kept (script : Text) : List Text :=
  if isAbs script then ((Text.splitOnByte slash script).filter (!·.isEmpty)).getLast?.toList
  else match components script with
    | [] => [here]
    | [c] => [c]
    | c :: d :: cs => if c = up then d :: cs else c :: d :: cs

/-- The path of the compiled file as seen from the output directory. -/
def destination (script : Text) : List Text := extended (kept script)

/-- How many levels a path leads up. -/
def levelsUp (cs : List Text) : Nat := (cs.takeWhile (· == up)).length

/-- Where a path leads once it has led up. -/
def wayDown (cs : List Text) : List Text := cs.dropWhile (· == up)

theorem extended_concat (cs : List Text) (c : Text) :
    extended (cs ++ [c]) = cs ++ [c ++ extension] := by
  induction cs with
  | nil => rfl
  | cons d cs ih =>
    cases cs with
    | nil => rfl
    | cons e cs => exact congrArg (d :: ·) ih

theorem isName_extension (h : slash ∉ c) : IsName (c ++ extension) := by
  have hlen : (c ++ extension).length = c.length + 4 := List.length_append
  refine ⟨?_, ?_, ?_, ?_⟩
  · intro heq
    simp [heq] at hlen
  · intro heq
    rw [heq] at hlen
    simp [here] at hlen
  · intro heq
    rw [heq] at hlen
    simp [up] at hlen
  · rw [List.mem_append, not_or]
    exact ⟨h, by decide⟩

theorem kept_cases (script : Text) :
    kept script = [] ∨
      ∃ cs c, kept script = cs ++ [c] ∧ Cleaned false cs ∧ slash ∉ c := by
  have hconcat {cs : List Text} (hne : cs ≠ []) (h : Cleaned false cs) :
      ∃ ds c, cs = ds ++ [c] ∧ Cleaned false ds ∧ slash ∉ c := by
    rw [← List.dropLast_concat_getLast hne] at h
    exact ⟨_, _, (List.dropLast_concat_getLast hne).symm, h.of_append_left, h.no_slash _ (by simp)⟩
  rw [kept]
  split
  · cases hlast : ((Text.splitOnByte slash script).filter (!·.isEmpty)).getLast? with
    | none => exact .inl rfl
    | some c =>
      have hc := List.mem_of_getLast? hlast
      exact .inr ⟨[], c, rfl, .nil false,
        Text.not_mem_of_mem_splitOnByte (List.mem_filter.mp hc).1⟩
  · rename_i hrel
    have hclean := cleaned_components script
    rw [Bool.not_eq_true] at hrel
    rw [hrel] at hclean
    right
    split
    · exact ⟨[], here, rfl, .nil false, by decide⟩
    · rename_i c hc
      exact ⟨[], c, rfl, .nil false, hclean.no_slash c (by simp [hc])⟩
    · rename_i c d cs hcs
      rw [hcs] at hclean
      split
      · have hparts : Cleaned false ([c] ++ d :: cs) := hclean
        exact hconcat (by simp) hparts.of_append
      · exact hconcat (by simp) hclean

/-- A compiled file has a name of its own, at the end of its path. -/
theorem destination_concat (script : Text) :
    ∃ cs c, destination script = cs ++ [c ++ extension] ∧ Cleaned false cs ∧ slash ∉ c := by
  rw [destination]
  obtain hnil | ⟨cs, c, hkept, hcs, hc⟩ := kept_cases script
  · exact ⟨[], [], by rw [hnil]; rfl, .nil false, List.not_mem_nil⟩
  · exact ⟨cs, c, by rw [hkept, extended_concat], hcs, hc⟩

theorem cleaned_destination (script : Text) : Cleaned false (destination script) := by
  obtain ⟨cs, c, hsplit, hcs, hc⟩ := destination_concat script
  rw [hsplit]
  exact hcs.concat (isName_extension hc)

theorem levelsUp_append_wayDown (h : Cleaned rooted cs) :
    cs = List.replicate (levelsUp cs) up ++ wayDown cs ∧ ∀ c ∈ wayDown cs, IsName c := by
  obtain ⟨m, ns, rfl, hns, -⟩ := h
  have hstop : ns.takeWhile (· == up) = [] ∧ ns.dropWhile (· == up) = ns := by
    cases ns with
    | nil => exact ⟨rfl, rfl⟩
    | cons c ns =>
      have hc : (c == up) = false := beq_false_of_ne (hns c (by simp)).ne_up
      exact ⟨by rw [List.takeWhile_cons, hc, if_neg Bool.false_ne_true],
        by rw [List.dropWhile_cons, hc, if_neg Bool.false_ne_true]⟩
  have hups : ∀ c ∈ List.replicate m up, (c == up) = true := by simp
  have hlevels : levelsUp (List.replicate m up ++ ns) = m := by
    rw [levelsUp, List.takeWhile_append_of_pos hups, hstop.1]
    simp
  have hway : wayDown (List.replicate m up ++ ns) = ns := by
    rw [wayDown, List.dropWhile_append_of_pos hups, hstop.2]
  rw [hlevels, hway]
  exact ⟨rfl, hns⟩

theorem wayDown_concat (h : c ≠ up) (cs : List Text) : wayDown (cs ++ [c]) = wayDown cs ++ [c] := by
  have hc : (c == up) = false := beq_false_of_ne h
  rw [wayDown, wayDown, List.dropWhile_append, List.dropWhile_cons, hc, if_neg Bool.false_ne_true]
  split
  · rename_i hnil
    rw [List.isEmpty_iff.mp hnil, List.nil_append]
  · rfl

/-! ## From the path to its components -/

/-- The path of the compiled file below the output directory, without the extension. -/
def below (script : Text) : Text :=
  let rel := clean (if isAbs script then base script else script)
  (Text.dropStart? "../" rel).getD rel

theorem splitOnByte_join_extension (hne : cs ≠ []) (h : ∀ c ∈ cs, slash ∉ c) :
    Text.splitOnByte slash (Text.join [slash] cs ++ extension) = extended cs := by
  induction cs with
  | nil => exact absurd rfl hne
  | cons c cs ih =>
    rw [List.forall_mem_cons] at h
    cases cs with
    | nil =>
      refine Text.splitOnByte_of_not_mem ?_
      rw [Text.join, List.mem_append, not_or]
      exact ⟨h.1, by decide⟩
    | cons d cs =>
      rw [Text.join_cons _ _ (by simp), List.append_assoc, List.append_assoc, List.singleton_append,
        Text.splitOnByte_append_cons, Text.splitOnByte_of_not_mem h.1, ih (by simp) h.2]
      rfl

/-- What is left of a path that leads up, once the first level is left out. -/
theorem dropStart?_up (rest : Text) : Text.dropStart? "../" (up ++ [slash] ++ rest) = some rest :=
  Text.dropStart?_eq_some.mpr rfl

theorem dropStart?_name (h : slash ∉ c) (hne : c ≠ up) (rest : Text) :
    Text.dropStart? "../" (c ++ [slash] ++ rest) = none := by
  rw [Option.eq_none_iff_forall_ne_some]
  intro more hmore
  have heq : c ++ [slash] ++ rest = up ++ [slash] ++ more := Text.dropStart?_eq_some.mp hmore
  have hpieces := congrArg (Text.splitOnByte slash) heq
  rw [List.append_assoc, List.append_assoc, List.singleton_append, List.singleton_append,
    Text.splitOnByte_append_cons, Text.splitOnByte_append_cons,
    Text.splitOnByte_of_not_mem h] at hpieces
  exact hne (List.cons.inj hpieces).1

theorem dropStart?_single (h : slash ∉ c) : Text.dropStart? "../" c = none := by
  rw [Option.eq_none_iff_forall_ne_some]
  intro more hmore
  have heq : c = up ++ [slash] ++ more := Text.dropStart?_eq_some.mp hmore
  exact h (by simp [heq])

/-- A script that is not named from the root keeps its directories. -/
theorem below_relative (h : isAbs script = false) :
    kept script ≠ [] ∧ below script = Text.join [slash] (kept script) := by
  have hclean := cleaned_components script
  rw [h] at hclean
  rw [kept, below, if_neg (by simp [h]), if_neg (by simp [h]), clean, h]
  split
  · rename_i hnil
    exact ⟨by simp, by rw [hnil]; decide⟩
  · rename_i c hc
    rw [hc] at hclean ⊢
    refine ⟨by simp, ?_⟩
    exact congrArg (Option.getD · c) (dropStart?_single (hclean.no_slash c (by simp)))
  · rename_i c d cs hcs
    rw [hcs] at hclean ⊢
    have hpath :
        ofComponents false (c :: d :: cs) = c ++ [slash] ++ Text.join [slash] (d :: cs) := rfl
    rw [hpath]
    split
    · rename_i hup
      rw [hup, dropStart?_up]
      exact ⟨by simp, rfl⟩
    · rename_i hup
      rw [dropStart?_name (hclean.no_slash c (by simp)) hup]
      exact ⟨by simp, rfl⟩

/-- A script that is named from the root keeps its last component. -/
theorem below_absolute (h : isAbs script = true) :
    below script = slash :: Text.join [slash] (kept script) ∧ kept script = [] ∨
      kept script ≠ [] ∧ below script = Text.join [slash] (kept script) := by
  have hne : script.isEmpty = false := by
    cases script with
    | nil => cases h
    | cons b script => rfl
  rw [kept, below, if_pos h, if_pos h, base, hne, if_neg Bool.false_ne_true]
  cases hlast : ((Text.splitOnByte slash script).filter (!·.isEmpty)).getLast? with
  | none => exact .inl ⟨by decide, rfl⟩
  | some c =>
    have hc := List.mem_filter.mp (List.mem_of_getLast? hlast)
    have hslash := Text.not_mem_of_mem_splitOnByte hc.1
    refine .inr ⟨by simp, ?_⟩
    dsimp only
    rw [clean_eq_self (by simpa using hc.2) hslash, dropStart?_single hslash]
    rfl

/-- Walking along the path below the output directory is walking to its destination. -/
theorem foldl_walk_below (rooted : Bool) (script : Text) (done : List Text) :
    (Text.splitOnByte slash (below script ++ extension)).foldl (walk rooted) done
      = (destination script).foldl (walk rooted) done := by
  have hslash : ∀ c ∈ kept script, slash ∉ c := by
    obtain hnil | ⟨cs, c, hkept, hcs, hc⟩ := kept_cases script
    · simp [hnil]
    · intro d hd
      rw [hkept, List.mem_append, List.mem_singleton] at hd
      obtain hd | rfl := hd
      · exact hcs.no_slash d hd
      · exact hc
  have hpath (hne : kept script ≠ []) (hbelow : below script = Text.join [slash] (kept script)) :
      Text.splitOnByte slash (below script ++ extension) = destination script := by
    rw [hbelow, splitOnByte_join_extension hne hslash, destination]
  by_cases habs : isAbs script = true
  · obtain ⟨hroot, hnil⟩ | ⟨hne, hbelow⟩ := below_absolute habs
    · rw [hroot, destination, hnil]
      rfl
    · rw [hpath hne hbelow]
  · obtain ⟨hne, hbelow⟩ := below_relative (Bool.not_eq_true _ ▸ habs)
    rw [hpath hne hbelow]

theorem pathFor_eq {outDir : Text} (h : outDir ≠ []) (script : Text) :
    pathFor outDir script = clean (outDir ++ slash :: (below script ++ extension)) := by
  have hpath : pathFor outDir script = Path.join [outDir, below script ++ extension] := rfl
  have hext : extension ≠ [] := by decide
  rw [hpath, Path.join, List.filter_cons_of_pos (by simpa using h),
    List.filter_cons_of_pos (by simp [hext]), List.filter_nil]
  exact congrArg clean (List.append_assoc _ _ _)

theorem components_pathFor {outDir : Text} (h : outDir ≠ []) (script : Text) :
    components (pathFor outDir script) =
      climb (isAbs outDir) (levelsUp (destination script)) (components outDir)
        ++ wayDown (destination script) := by
  obtain ⟨hdestination, hway⟩ := levelsUp_append_wayDown (cleaned_destination script)
  have hwalk := foldl_walk (isAbs outDir) (levelsUp (destination script)) hway (components outDir)
  rw [← hdestination] at hwalk
  rw [pathFor_eq h, components_clean, components_append _ _ h, foldl_walk_below, hwalk]

theorem extension_suffix_pathFor {outDir : Text} (h : outDir ≠ []) (script : Text) :
    extension <:+ pathFor outDir script := by
  obtain ⟨cs, c, hdestination, -, hc⟩ := destination_concat script
  have hcomponents := components_pathFor h script
  rw [hdestination, wayDown_concat (isName_extension hc).ne_up, ← List.append_assoc] at hcomponents
  have hclean : clean (pathFor outDir script) = pathFor outDir script := by
    rw [pathFor_eq h, clean_clean]
  rw [← hclean, clean, hcomponents]
  exact (List.suffix_append c extension).trans (suffix_ofComponents _ _ _)

/-- The path of a compiled file ends in the extension, and it is in the output directory if and
only if the script's path, as far as it leads up out of that directory, comes back down through the
same directories. So it is there if the script's path leads up at most once. -/
theorem pathFor_inside_iff {outDir : Text} (h : outDir ≠ []) (script : Text) :
    extension <:+ pathFor outDir script ∧
      (Inside outDir (pathFor outDir script) ↔
        (isAbs outDir = true ∨ levelsUp (destination script) ≤ (components outDir).length) ∧
          (components outDir).drop ((components outDir).length - levelsUp (destination script))
            <+: wayDown (destination script)) := by
  have habs : isAbs (pathFor outDir script) = isAbs outDir := by
    rw [pathFor_eq h, isAbs_clean, isAbs_append_cons _ _ h]
  obtain ⟨-, hway⟩ := levelsUp_append_wayDown (cleaned_destination script)
  refine ⟨extension_suffix_pathFor h script, ?_⟩
  rw [inside_iff habs, components_pathFor h]
  exact climb_append_iff (cleaned_components outDir) hway _

/-- Of two levels up the second one leads out of the output directory. -/
theorem pathFor_two_levels_up :
    ("out" : Text) ≠ [] ∧ ¬ Inside "out" (pathFor "out" "../../x.cs") := by
  have hne : ("out" : Text) ≠ [] := by decide
  refine ⟨hne, fun hinside => ?_⟩
  have hback := (pathFor_inside_iff hne "../../x.cs").2.mp hinside
  exact absurd hback (by decide)

end ConsoleScript.CompiledFile
