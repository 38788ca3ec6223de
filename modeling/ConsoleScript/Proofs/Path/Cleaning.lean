import ConsoleScript.Path

/-!
# Cleaned paths

A cleaned path first leads up some levels, unless it starts at the root, and then down through
names only. Its components say where it leads, so cleaning it again changes nothing, and following
a second path from where it leads takes away as many components as that path leads up.
-/

namespace ConsoleScript

namespace Text

variable {sep : UInt8} {s t : Text} {ts : List Text}

/-! ## Cutting at a byte -/

theorem splitOnByte_ne_nil (sep : UInt8) (t : Text) : splitOnByte sep t ≠ [] := by
  cases t with
  | nil => exact List.cons_ne_nil _ _
  | cons b t =>
    rw [splitOnByte]
    split
    · exact List.cons_ne_nil _ _
    · split <;> exact List.cons_ne_nil _ _

theorem splitOnByte_cons_of_ne {b : UInt8} (h : b ≠ sep) :
    splitOnByte sep (b :: t) = (splitOnByte sep t).modifyHead (b :: ·) := by
  obtain ⟨p, ps, hp⟩ := List.exists_cons_of_ne_nil (splitOnByte_ne_nil sep t)
  rw [splitOnByte, if_neg (by simpa using h), hp, List.modifyHead_cons]

theorem splitOnByte_sep_cons : splitOnByte sep (sep :: t) = [] :: splitOnByte sep t := by
  rw [splitOnByte, if_pos (beq_self_eq_true sep)]

theorem splitOnByte_append_cons (sep : UInt8) (s t : Text) :
    splitOnByte sep (s ++ sep :: t) = splitOnByte sep s ++ splitOnByte sep t := by
  induction s with
  | nil => exact splitOnByte_sep_cons
  | cons b s ih =>
    by_cases hb : b = sep
    · rw [hb, List.cons_append, splitOnByte_sep_cons, splitOnByte_sep_cons, ih, List.cons_append]
    · obtain ⟨p, ps, hp⟩ := List.exists_cons_of_ne_nil (splitOnByte_ne_nil sep s)
      rw [List.cons_append, splitOnByte_cons_of_ne hb, splitOnByte_cons_of_ne hb, ih, hp]
      rfl

theorem not_mem_of_mem_splitOnByte {p : Text} (h : p ∈ splitOnByte sep t) : sep ∉ p := by
  induction t generalizing p with
  | nil => simp_all [splitOnByte]
  | cons b t ih =>
    by_cases hb : b = sep
    · rw [hb, splitOnByte_sep_cons, List.mem_cons] at h
      obtain rfl | h := h
      · exact List.not_mem_nil
      · exact ih h
    · obtain ⟨q, qs, hq⟩ := List.exists_cons_of_ne_nil (splitOnByte_ne_nil sep t)
      rw [splitOnByte_cons_of_ne hb, hq, List.modifyHead_cons, List.mem_cons] at h
      obtain rfl | h := h
      · simp [Ne.symm hb, ih (p := q) (by simp [hq])]
      · exact ih (by simp [hq, h])

theorem splitOnByte_of_not_mem (h : sep ∉ t) : splitOnByte sep t = [t] := by
  induction t with
  | nil => rfl
  | cons b t ih =>
    rw [List.mem_cons, not_or] at h
    rw [splitOnByte_cons_of_ne (Ne.symm h.1), ih h.2, List.modifyHead_cons]

theorem join_cons (sep t : Text) (h : ts ≠ []) : join sep (t :: ts) = t ++ sep ++ join sep ts := by
  cases ts with
  | nil => exact absurd rfl h
  | cons u us => rfl

theorem splitOnByte_join (hne : ts ≠ []) (h : ∀ t ∈ ts, sep ∉ t) :
    splitOnByte sep (join [sep] ts) = ts := by
  induction ts with
  | nil => exact absurd rfl hne
  | cons t ts ih =>
    rw [List.forall_mem_cons] at h
    by_cases hts : ts = []
    · rw [hts]
      exact splitOnByte_of_not_mem h.1
    · rw [join_cons _ _ hts, List.append_assoc, List.singleton_append, splitOnByte_append_cons,
        splitOnByte_of_not_mem h.1, ih hts h.2, List.singleton_append]

theorem suffix_join_concat (sep : Text) (ts : List Text) (t : Text) :
    t <:+ join sep (ts ++ [t]) := by
  induction ts with
  | nil => exact List.suffix_refl t
  | cons u ts ih =>
    rw [List.cons_append, join_cons _ _ (by simp)]
    exact ih.trans (List.suffix_append _ _)

theorem dropStart?_eq_some {start rest : Text} :
    dropStart? start t = some rest ↔ t = start ++ rest := by
  induction start generalizing t with
  | nil => simp [dropStart?]
  | cons a start ih =>
    cases t with
    | nil => simp [dropStart?]
    | cons b t =>
      rw [dropStart?, List.cons_append, List.cons.injEq]
      split
      · rename_i h
        rw [ih, and_iff_right (beq_iff_eq.mp h).symm]
      · rename_i h
        simp [Ne.symm (beq_eq_false_iff_ne.mp (Bool.eq_false_iff.mpr h))]

end Text

namespace Path

variable {rooted : Bool} {c d p : Text} {cs ds ns : List Text}

/-! ## Components -/

/-- The name of a file or a directory, as opposed to `.` and `..`. -/
structure IsName (c : Text) : Prop where
  ne_nil : c ≠ []
  ne_here : c ≠ here
  ne_up : c ≠ up
  no_slash : slash ∉ c

/-- The components of a cleaned path: those that lead up stand in front of the names, and there are
none of them below the root. -/
def Cleaned (rooted : Bool) (cs : List Text) : Prop :=
  ∃ m ns, cs = List.replicate m up ++ ns ∧ (∀ c ∈ ns, IsName c) ∧ (rooted = true → m = 0)

theorem Cleaned.no_slash (h : Cleaned rooted cs) : ∀ c ∈ cs, slash ∉ c := by
  obtain ⟨m, ns, rfl, hns, -⟩ := h
  intro c hc
  obtain hc | hc := List.mem_append.mp hc
  · rw [List.eq_of_mem_replicate hc]
    decide
  · exact (hns c hc).no_slash

theorem Cleaned.ne_nil (h : Cleaned rooted cs) : ∀ c ∈ cs, c ≠ [] := by
  obtain ⟨m, ns, rfl, hns, -⟩ := h
  intro c hc
  obtain hc | hc := List.mem_append.mp hc
  · rw [List.eq_of_mem_replicate hc]
    decide
  · exact (hns c hc).ne_nil

/-! ## Walking -/

@[simp]
theorem walk_nil (rooted : Bool) (done : List Text) : walk rooted done [] = done := rfl

@[simp]
theorem walk_here (rooted : Bool) (done : List Text) : walk rooted done here = done := rfl

theorem walk_name (rooted : Bool) (done : List Text) (h : IsName c) :
    walk rooted done c = c :: done := by
  simp [walk, h.ne_nil, h.ne_here, h.ne_up]

theorem walk_up_up (rooted : Bool) (done : List Text) :
    walk rooted (up :: done) up = up :: up :: done := rfl

theorem walk_name_up (rooted : Bool) (done : List Text) (h : d ≠ up) :
    walk rooted (d :: done) up = done := by
  have hup : (up.isEmpty || up == here) = false := by decide
  simp [walk, hup, h]

theorem foldl_walk_names (rooted : Bool) (h : ∀ c ∈ ns, IsName c) (done : List Text) :
    ns.foldl (walk rooted) done = ns.reverse ++ done := by
  induction ns generalizing done with
  | nil => rfl
  | cons c ns ih =>
    rw [List.forall_mem_cons] at h
    rw [List.foldl_cons, walk_name rooted done h.1, ih h.2, List.reverse_cons, List.append_assoc,
      List.singleton_append]

/-- What walking up some levels leaves of a cleaned path. -/
def climb (rooted : Bool) (j : Nat) (cs : List Text) : List Text :=
  ((List.replicate j up).foldl (walk rooted) cs.reverse).reverse

theorem foldl_walk (rooted : Bool) (j : Nat) (h : ∀ c ∈ ns, IsName c) (cs : List Text) :
    ((List.replicate j up ++ ns).foldl (walk rooted) cs.reverse).reverse
      = climb rooted j cs ++ ns := by
  rw [List.foldl_append, foldl_walk_names rooted h, List.reverse_append, List.reverse_reverse,
    climb]

theorem climb_succ (rooted : Bool) (j : Nat) (cs : List Text) :
    climb rooted (j + 1) cs = climb rooted 1 (climb rooted j cs) := by
  rw [climb, climb, climb, List.replicate_succ', List.foldl_append, List.reverse_reverse]
  rfl

theorem climb_one_name (rooted : Bool) (h : d ≠ up) (cs : List Text) :
    climb rooted 1 (cs ++ [d]) = cs := by
  rw [climb, List.reverse_append]
  exact (congrArg List.reverse (walk_name_up rooted cs.reverse h)).trans (List.reverse_reverse cs)

theorem climb_root (j : Nat) : climb true j [] = [] := by
  induction j with
  | zero => rfl
  | succ j ih => rw [climb_succ, ih]; rfl

theorem climb_ups (m j : Nat) :
    climb false j (List.replicate m up) = List.replicate (m + j) up := by
  induction j with
  | zero => simp [climb]
  | succ j ih =>
    rw [climb_succ, ih, climb, List.reverse_replicate, ← Nat.add_assoc]
    cases m + j with
    | zero => rfl
    | succ k =>
      have hwalk : walk false (List.replicate (k + 1) up) up = List.replicate (k + 2) up :=
        walk_up_up false (List.replicate k up)
      rw [List.replicate_one, List.foldl_cons, List.foldl_nil, hwalk, List.reverse_replicate]

theorem climb_names (rooted : Bool) (m : Nat) (hns : ∀ c ∈ ns, IsName c) {j : Nat}
    (hj : j ≤ ns.length) :
    climb rooted j (List.replicate m up ++ ns)
      = List.replicate m up ++ ns.take (ns.length - j) := by
  induction j with
  | zero => simp [climb]
  | succ j ih =>
    have hlt : ns.length - (j + 1) < ns.length := by omega
    have hstep : ns.length - j = ns.length - (j + 1) + 1 := by omega
    rw [climb_succ, ih (by omega), hstep, List.take_add_one, List.getElem?_eq_getElem hlt,
      Option.toList_some, ← List.append_assoc]
    exact climb_one_name rooted (hns _ (List.getElem_mem hlt)).ne_up _

/-- Where there are no names left, walking up goes on from the front. -/
theorem climb_beyond (rooted : Bool) (m : Nat) (hns : ∀ c ∈ ns, IsName c) (j : Nat) :
    climb rooted (ns.length + j) (List.replicate m up ++ ns)
      = climb rooted j (List.replicate m up) := by
  induction j with
  | zero =>
    rw [Nat.add_zero, climb_names rooted m hns (Nat.le_refl _)]
    simp [climb]
  | succ j ih => rw [← Nat.add_assoc, climb_succ, ih, ← climb_succ]

/-! ## Cleaning -/

theorem Cleaned.nil (rooted : Bool) : Cleaned rooted [] := ⟨0, [], rfl, by simp, fun _ => rfl⟩

theorem Cleaned.climb_one (h : Cleaned rooted cs) : Cleaned rooted (climb rooted 1 cs) := by
  obtain ⟨m, ns, rfl, hns, hm⟩ := h
  cases hlen : ns.length with
  | zero =>
    rw [List.length_eq_zero_iff.mp hlen, List.append_nil]
    cases rooted with
    | true => rw [hm rfl]; exact .nil true
    | false => exact ⟨m + 1, [], by rw [climb_ups, List.append_nil], by simp, by simp⟩
  | succ k =>
    refine ⟨m, _, climb_names rooted m hns (by omega), fun c hc => ?_, hm⟩
    exact hns c (List.mem_of_mem_take hc)

theorem Cleaned.concat (h : Cleaned rooted cs) (hc : IsName c) : Cleaned rooted (cs ++ [c]) := by
  obtain ⟨m, ns, rfl, hns, hm⟩ := h
  refine ⟨m, ns ++ [c], List.append_assoc _ _ _, ?_, hm⟩
  intro x hx
  obtain hx | hx := List.mem_append.mp hx
  · exact hns x hx
  · rwa [List.mem_singleton.mp hx]

theorem Cleaned.walk (h : Cleaned rooted cs) (hc : slash ∉ c) :
    Cleaned rooted (walk rooted cs.reverse c).reverse := by
  by_cases hnil : c = []
  · rwa [hnil, walk_nil, List.reverse_reverse]
  by_cases hhere : c = here
  · rwa [hhere, walk_here, List.reverse_reverse]
  by_cases hup : c = up
  · rw [hup]
    exact h.climb_one
  · have hname : IsName c := ⟨hnil, hhere, hup, hc⟩
    rw [walk_name rooted _ hname, List.reverse_cons, List.reverse_reverse]
    exact h.concat hname

theorem Cleaned.foldl_walk {pieces : List Text} (h : Cleaned rooted cs)
    (hpieces : ∀ c ∈ pieces, slash ∉ c) :
    Cleaned rooted (pieces.foldl (Path.walk rooted) cs.reverse).reverse := by
  induction pieces generalizing cs with
  | nil => rwa [List.foldl_nil, List.reverse_reverse]
  | cons c pieces ih =>
    rw [List.forall_mem_cons] at hpieces
    rw [List.foldl_cons]
    have hstep := ih (h.walk hpieces.1) hpieces.2
    rwa [List.reverse_reverse] at hstep

theorem cleaned_components (p : Text) : Cleaned (isAbs p) (components p) :=
  Cleaned.foldl_walk (.nil _) fun _ => Text.not_mem_of_mem_splitOnByte

theorem Cleaned.foldl_walk_self (h : Cleaned rooted cs) :
    (cs.foldl (Path.walk rooted) []).reverse = cs := by
  obtain ⟨m, ns, rfl, hns, hm⟩ := h
  have hwalk := Path.foldl_walk rooted m hns []
  rw [List.reverse_nil] at hwalk
  rw [hwalk]
  cases rooted with
  | true => rw [hm rfl]; rfl
  | false => rw [← List.replicate_zero, climb_ups, Nat.zero_add]

theorem isAbs_ofComponents (h : Cleaned rooted cs) : isAbs (ofComponents rooted cs) = rooted := by
  cases rooted with
  | true => rfl
  | false =>
    cases cs with
    | nil => decide
    | cons c cs =>
      obtain ⟨b, c, rfl⟩ := List.exists_cons_of_ne_nil (h.ne_nil c (by simp))
      have hb : b ≠ slash := by
        rintro rfl
        exact h.no_slash (slash :: c) (by simp) (by simp)
      have hhead : (ofComponents false ((b :: c) :: cs)).head? = some b := by
        cases cs <;> rfl
      rw [isAbs, hhead]
      simpa using hb

theorem components_ofComponents (h : Cleaned rooted cs) :
    components (ofComponents rooted cs) = cs := by
  rw [components, isAbs_ofComponents h]
  by_cases hcs : cs = []
  · rw [hcs]
    cases rooted <;> decide
  · have hpieces : Text.splitOnByte slash (Text.join [slash] cs) = cs :=
      Text.splitOnByte_join hcs h.no_slash
    cases rooted with
    | true =>
      rw [ofComponents, if_pos rfl, Text.splitOnByte_sep_cons, hpieces, List.foldl_cons, walk_nil]
      exact h.foldl_walk_self
    | false =>
      rw [ofComponents, if_neg Bool.false_ne_true, if_neg (by simpa using hcs), hpieces]
      exact h.foldl_walk_self

theorem isAbs_clean (p : Text) : isAbs (clean p) = isAbs p :=
  isAbs_ofComponents (cleaned_components p)

theorem components_clean (p : Text) : components (clean p) = components p :=
  components_ofComponents (cleaned_components p)

theorem clean_clean (p : Text) : clean (clean p) = clean p := by
  rw [clean, isAbs_clean, components_clean, clean]

theorem suffix_ofComponents (rooted : Bool) (cs : List Text) (c : Text) :
    c <:+ ofComponents rooted (cs ++ [c]) := by
  rw [ofComponents]
  split
  · exact (Text.suffix_join_concat _ cs c).trans (List.suffix_cons _ _)
  · rw [if_neg (by simp)]
    exact Text.suffix_join_concat _ cs c

theorem clean_eq_self (hne : c ≠ []) (h : slash ∉ c) : clean c = c := by
  have habs : isAbs c = false := by
    obtain ⟨b, c, rfl⟩ := List.exists_cons_of_ne_nil hne
    have hb : b ≠ slash := fun hb => h (hb ▸ List.mem_cons_self)
    rw [isAbs, List.head?_cons]
    simpa using hb
  rw [clean, habs, components, habs, Text.splitOnByte_of_not_mem h]
  by_cases hhere : c = here
  · rw [hhere]
    decide
  · by_cases hup : c = up
    · rw [hup]
      decide
    · rw [List.foldl_cons, walk_name _ _ ⟨hne, hhere, hup, h⟩]
      rfl

theorem isAbs_append_cons (p q : Text) (hp : p ≠ []) : isAbs (p ++ slash :: q) = isAbs p := by
  obtain ⟨b, p, rfl⟩ := List.exists_cons_of_ne_nil hp
  rfl

/-- One path below another leads where walking along the second from the first leads. -/
theorem components_append (p q : Text) (hp : p ≠ []) :
    components (p ++ slash :: q)
      = ((Text.splitOnByte slash q).foldl (walk (isAbs p)) (components p).reverse).reverse := by
  rw [components, isAbs_append_cons p q hp, Text.splitOnByte_append_cons, List.foldl_append,
    components, List.reverse_reverse]

/-! ## Paths inside a directory -/

/-- Does the path lead into the directory? The path from there to it must not lead up. -/
def Inside (dir p : Text) : Prop :=
  ∃ r, relative? (clean dir) p = some r ∧ (components r).head? ≠ some up

theorem dropCommon_append (as bs : List Text) : dropCommon as (as ++ bs) = ([], bs) := by
  induction as with
  | nil => cases bs <;> rfl
  | cons a as ih => rw [List.cons_append, dropCommon, if_pos (beq_self_eq_true a), ih]

theorem dropCommon_spec (as bs : List Text) :
    ∃ cs, as = cs ++ (dropCommon as bs).1 ∧ bs = cs ++ (dropCommon as bs).2 := by
  induction as generalizing bs with
  | nil => exact ⟨[], rfl, rfl⟩
  | cons a as ih =>
    cases bs with
    | nil => exact ⟨[], rfl, rfl⟩
    | cons b bs =>
      rw [dropCommon]
      split
      · rename_i h
        obtain ⟨cs, has, hbs⟩ := ih bs
        refine ⟨a :: cs, by rw [List.cons_append, ← has], ?_⟩
        rw [List.cons_append, ← hbs, beq_iff_eq.mp h]
      · exact ⟨[], rfl, rfl⟩

/-- What stands behind other components of a cleaned path is the cleaned path from there. -/
theorem Cleaned.of_append (h : Cleaned rooted (cs ++ ds)) : Cleaned false ds := by
  obtain ⟨m, ns, hsplit, hns, -⟩ := h
  refine ⟨m - cs.length, ns.drop (cs.length - m), ?_, ?_, by simp⟩
  · have hdrop := congrArg (List.drop cs.length) hsplit
    rwa [List.drop_left, List.drop_append, List.drop_replicate, List.length_replicate] at hdrop
  · exact fun c hc => hns c (List.mem_of_mem_drop hc)

theorem Cleaned.of_append_left (h : Cleaned rooted (cs ++ ds)) : Cleaned rooted cs := by
  obtain ⟨m, ns, hsplit, hns, hm⟩ := h
  refine ⟨min cs.length m, ns.take (cs.length - m), ?_, ?_, ?_⟩
  · have htake := congrArg (List.take cs.length) hsplit
    rwa [List.take_left, List.take_append, List.take_replicate, List.length_replicate] at htake
  · exact fun c hc => hns c (List.mem_of_mem_take hc)
  · intro hrooted
    rw [hm hrooted, Nat.min_zero]

theorem Cleaned.ups_append (h : Cleaned false cs) (k : Nat) :
    Cleaned false (List.replicate k up ++ cs) := by
  obtain ⟨m, ns, rfl, hns, -⟩ := h
  exact ⟨k + m, ns, by rw [← List.append_assoc, List.replicate_append_replicate], hns, by simp⟩

/-- A path is inside a directory if it goes on from there and does not lead up first. -/
theorem inside_iff {dir : Text} (habs : isAbs p = isAbs dir) :
    Inside dir p ↔
      ∃ rest, components p = components dir ++ rest ∧ rest.head? ≠ some up := by
  have hrelative {away there : List Text}
      (hdrop : dropCommon (components dir) (components p) = (away, there)) :
      relative? (clean dir) p = if away.contains up then none
        else some (ofComponents false (away.map (fun _ => up) ++ there)) := by
    rw [relative?, isAbs_clean, habs, components_clean, if_neg (by simp), hdrop]
  rw [Inside]
  constructor
  · rintro ⟨r, hr, hhead⟩
    obtain ⟨common, hdir, hp⟩ := dropCommon_spec (components dir) (components p)
    generalize hdrop : dropCommon (components dir) (components p) = parts at hdir hp
    obtain ⟨away, there⟩ := parts
    dsimp only at hdir hp
    rw [hrelative hdrop] at hr
    split at hr
    · cases hr
    obtain rfl := Option.some.inj hr
    have hthere : Cleaned false there := by
      have h := cleaned_components p
      rw [hp] at h
      exact h.of_append
    have hcleaned := hthere.ups_append away.length
    rw [List.map_const', components_ofComponents hcleaned] at hhead
    have haway : away = [] := by
      cases away with
      | nil => rfl
      | cons a away => exact absurd rfl hhead
    rw [haway] at hdir hhead
    refine ⟨there, ?_, hhead⟩
    rw [hp, hdir, List.append_nil]
  · rintro ⟨rest, hp, hhead⟩
    have hrest : Cleaned false rest := by
      have h := cleaned_components p
      rw [hp] at h
      exact h.of_append
    rw [hrelative (by rw [hp, dropCommon_append])]
    exact ⟨_, rfl, by simpa [components_ofComponents hrest] using hhead⟩

/-- A path that leads some levels up from a directory and then down through names is inside the
directory if it comes back through the directories that it left. -/
theorem climb_append_iff (hds : Cleaned rooted ds) (hns : ∀ c ∈ ns, IsName c) (j : Nat) :
    (∃ rest, climb rooted j ds ++ ns = ds ++ rest ∧ rest.head? ≠ some up) ↔
      (rooted = true ∨ j ≤ ds.length) ∧ ds.drop (ds.length - j) <+: ns := by
  have hup : up ∉ ns := fun h => (hns up h).ne_up rfl
  -- where walking up takes away the last components only, they have to come back
  have hback {front left : List Text} (hfront : ds = front ++ left) :
      (∃ rest, front ++ ns = ds ++ rest ∧ rest.head? ≠ some up) ↔ left <+: ns := by
    rw [hfront]
    simp only [List.append_assoc, List.append_cancel_left_eq]
    constructor
    · rintro ⟨rest, h, -⟩
      exact ⟨rest, h.symm⟩
    · rintro ⟨rest, h⟩
      refine ⟨rest, h.symm, fun hhead => hup ?_⟩
      exact h ▸ List.mem_append_right _ (List.mem_of_head? hhead)
  have hdrop {front left : List Text} {n : Nat} (hfront : ds = front ++ left)
      (hn : front.length = n) : ds.drop n = left := by
    rw [hfront]
    exact List.drop_left' hn
  obtain ⟨m, names, hsplit, hnames, hm⟩ := hds
  have hlen : ds.length = m + names.length := by rw [hsplit]; simp
  by_cases hj : j ≤ names.length
  · have hfront : ds = (List.replicate m up ++ names.take (names.length - j))
        ++ names.drop (names.length - j) := by
      rw [List.append_assoc, List.take_append_drop, hsplit]
    rw [hdrop hfront (by simp; omega), ← hback hfront, hsplit, climb_names rooted m hnames hj, ← hsplit,
      and_iff_right (.inr (by omega))]
  · obtain ⟨k, rfl⟩ : ∃ k, j = names.length + (k + 1) := ⟨j - names.length - 1, by omega⟩
    rw [hsplit, climb_beyond rooted m hnames, ← hsplit]
    cases rooted with
    | true =>
      have hall : ds.length - (names.length + (k + 1)) = 0 := by
        rw [hlen, hm rfl]
        omega
      rw [hm rfl, List.replicate_zero, climb_root, hback (List.nil_append ds).symm, hall,
        List.drop_zero, and_iff_right (.inl rfl)]
    | false =>
      rw [climb_ups]
      constructor
      · rintro ⟨rest, h, hhead⟩
        rw [hsplit, ← List.replicate_append_replicate, List.append_assoc, List.append_assoc,
          List.append_cancel_left_eq] at h
        cases names with
        | nil =>
          rw [List.nil_append] at h
          exact absurd (h ▸ rfl) hhead
        | cons c names => exact absurd (List.cons.inj h).1.symm (hnames c (by simp)).ne_up
      · rintro ⟨hle, hstart⟩
        rw [or_iff_right Bool.false_ne_true] at hle
        obtain ⟨i, hi⟩ : ∃ i, m = ds.length - (names.length + (k + 1)) + (i + 1) :=
          ⟨k, by omega⟩
        have hfront : ds = List.replicate (ds.length - (names.length + (k + 1))) up
            ++ (List.replicate (i + 1) up ++ names) := by
          rw [← List.append_assoc, List.replicate_append_replicate, ← hi, ← hsplit]
        rw [hdrop hfront List.length_replicate] at hstart
        exact absurd (hstart.subset List.mem_cons_self) hup

end Path
end ConsoleScript
