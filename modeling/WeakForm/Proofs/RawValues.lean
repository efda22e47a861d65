import WeakForm.Proofs.DerivativeCounts
import WeakForm.Proofs.TableNames
import WeakForm.Proofs.TablePlaces
import WeakForm.Table.Assembly

/-!
# Values of a source

The table of a source holds the values that are filed for each of its entities. What is
filed for all of them has the points and dofs of the first, so no position of the table is
filled without a value. On one domain, sources that share a name are the same as far as their
derivative counts have the same widths.

* `filed`, `assemble_ok` — what is filed for the entities;
* `Files`, `assemble_files` — the values of a source with one permutation;
* `Frame.Counts`, `tableSource_counts` — the counts of a source are those of its derivatives;
* `tableSource_congr` — a source is that of the descriptor;
* `sourceName_tells`, `sourceName_injective` — what a name tells of the source.
-/

namespace WeakForm

variable {R : Type}

namespace BasisTable

/-- Within its lengths, a table has a value. -/
theorem get?_isSome {t : BasisTable R} {dof component point : Nat} (hd : dof < t.dofs)
    (hc : component < t.components) (hp : point < t.points) :
    ∃ v, t.get? dof component point = some v := by
  have hlt : (dof * t.components + component) * t.points + point < t.values.size := by
    rw [t.size_values]
    exact mul_add_lt_mul (mul_add_lt_mul hd hc) hp
  exact ⟨_, Array.getElem?_eq_getElem hlt⟩

end BasisTable

namespace TableSource

variable {basis : BasisValues R} {s : TableSource} {points : Nat} {type : IntegralType}
  {d : Domain} {averaged : Option Averaging}

/-! ## Assembly -/

/-- The tables of a key are those of the basis. -/
theorem permutations_ok {k : BasisKey} {expected : Option Nat} {tables : List (BasisTable R)}
    (h : permutations basis k expected = .ok tables) : tables = basis.get k := by
  unfold permutations at h
  by_cases hempty : (basis.get k).isEmpty
  · rw [if_pos hempty] at h
    cases h
  · rw [if_neg hempty] at h
    cases expected with
    | none =>
      cases h
      rfl
    | some n =>
      by_cases hlength : (basis.get k).length = n
      · dsimp only at h
        rw [if_pos hlength] at h
        cases h
        rfl
      · dsimp only at h
        rw [if_neg hlength] at h
        cases h

/-- What is gathered is what the basis has under the keys. -/
theorem gather_eq {keys : List BasisKey} {expected : Option Nat}
    {byEntity : List (List (BasisTable R))} (h : gather basis keys expected = .ok byEntity) :
    byEntity = keys.map basis.get := by
  induction keys generalizing expected byEntity with
  | nil =>
    cases h
    rfl
  | cons k keys ih =>
    obtain ⟨tables, htables, h⟩ := bind_eq_ok.mp h
    obtain ⟨rest, hrest, h⟩ := bind_eq_ok.mp h
    cases h
    rw [List.map_cons, permutations_ok htables, ih hrest]

/-- A loop that succeeds succeeds on every item. -/
theorem forM_ok {α ε : Type} {f : α → Except ε Unit} {items : List α} (h : items.forM f = .ok ()) :
    ∀ x ∈ items, f x = .ok () := by
  induction items with
  | nil => exact fun x hx => absurd hx List.not_mem_nil
  | cons y items ih =>
    obtain ⟨_, hy, h⟩ := bind_eq_ok.mp h
    intro x hx
    rcases List.mem_cons.mp hx with rfl | hx
    · exact hy
    · exact ih h x hx

/-- A basis table that is accepted has the points, the functions and the component. -/
theorem checkBasis_ok {dofs component : Nat} {t : BasisTable R}
    (h : s.checkBasis points dofs component t = .ok ()) :
    t.points = points ∧ t.dofs = dofs ∧ component < t.components := by
  unfold checkBasis at h
  by_cases hshape : t.points = points ∧ t.dofs = dofs
  · by_cases hcomponent : component < t.components
    · exact ⟨hshape.1, hshape.2, hcomponent⟩
    · rw [if_pos hshape, if_neg hcomponent] at h
      cases h
  · rw [if_neg hshape] at h
    cases h

variable [Scalar R]

/-- What is filed for the entities, a list of permutations each. -/
def filed (s : TableSource) (points : Nat) (type : IntegralType) (d : Domain)
    (averaged : Option Averaging) (basis : BasisValues R) : List (List (BasisTable R)) :=
  (List.range (entities averaged type d)).map fun e => basis.get (s.key points averaged e)

omit [Scalar R] in
/-- What is filed for an entity is what the basis has under its key. -/
theorem getElem?_filed {e : Nat} (he : e < entities averaged type d) :
    (s.filed points type d averaged basis)[e]? = some (basis.get (s.key points averaged e)) := by
  rw [filed, List.getElem?_map, List.getElem?_range he]
  rfl

/-- The table of a component, of the points and dofs of the first one that is filed. -/
def assembled (byEntity : List (List (BasisTable R))) (first : BasisTable R)
    (count component : Nat) :
    Table R :=
  let tables := (byEntity.map List.toArray).toArray
  .ofFn
    { permutations := (tables.getD 0 #[]).size
      entities := count
      points := first.points
      dofs := first.dofs }
    fun p e q dof => (do (← (← tables[e]?)[p]?).get? dof component q).getD Scalar.zero

section Assembled

variable {byEntity : List (List (BasisTable R))} {first t : BasisTable R}
  {count component e q dof : Nat}

/-- An assembled table has one permutation when the first entity has one basis table. -/
theorem permutations_assembled (h : byEntity[0]? = some [t]) :
    (assembled byEntity first count component).shape.permutations = 1 := by
  show (((byEntity.map List.toArray).toArray).getD 0 #[]).size = 1
  rw [Array.getD_eq_getD_getElem?, List.getElem?_toArray, List.getElem?_map, h]
  rfl

/-- An assembled table has the values of the basis tables. -/
theorem get_assembled (h : byEntity[e]? = some [t])
    (hhas : (assembled byEntity first count component).shape.Has 0 e q dof) :
    (assembled byEntity first count component).get 0 e q dof =
      (t.get? dof component q).getD Scalar.zero := by
  have hentity : ((byEntity.map List.toArray).toArray)[e]? = some #[t] := by
    rw [List.getElem?_toArray, List.getElem?_map, h]
    rfl
  have hget : (assembled byEntity first count component).get 0 e q dof =
      (do (← (← ((byEntity.map List.toArray).toArray)[e]?)[0]?).get? dof component q).getD
        Scalar.zero := Table.get_ofFn hhas
  rw [hget, hentity]
  rfl

end Assembled

/-- What is filed for all entities has the points and dofs of the first. -/
theorem assemble_ok {values : Table R}
    (h : s.assemble points type d averaged basis = .ok values) :
    0 < entities averaged type d ∧ ∃ first : BasisTable R,
      (∀ t ∈ (s.filed points type d averaged basis).flatten, t.points = first.points ∧
        t.dofs = first.dofs ∧ s.component.getD 0 < t.components) ∧
      values = assembled (s.filed points type d averaged basis) first (entities averaged type d)
        (s.component.getD 0) := by
  -- gathering takes the tables of every entity
  obtain ⟨byEntity, hgather, h⟩ := bind_eq_ok.mp h
  obtain rfl : byEntity = s.filed points type d averaged basis := by
    rw [gather_eq hgather, List.map_map]
    rfl
  dsimp only at h
  split at h
  · cases h
  · next first hfirst =>
    obtain ⟨_, hcheck, h⟩ := bind_eq_ok.mp h
    cases h
    refine ⟨?_, first, fun t ht => checkBasis_ok (forM_ok hcheck t ht), rfl⟩
    -- without entities there is no first table
    by_contra hzero
    rw [filed, Nat.eq_zero_of_not_pos hzero] at hfirst
    cases hfirst

/-- A table holds what is filed for every entity, one permutation each. -/
structure Files (s : TableSource) (points : Nat) (type : IntegralType) (d : Domain)
    (averaged : Option Averaging) (basis : BasisValues R) (values : Table R) : Prop where
  permutations : values.shape.permutations = 1
  filed : ∀ e < entities averaged type d, ∃ t, basis.get (s.key points averaged e) = [t] ∧
    ∀ q < t.points, ∀ dof < t.dofs, values.shape.Has 0 e q dof ∧
      t.get? dof (s.component.getD 0) q = some (values.get 0 e q dof)

/-- **The values of a source** are those filed for its entities. -/
theorem assemble_files {values : Table R}
    (hsingle : ∀ e < entities averaged type d, (basis.get (s.key points averaged e)).length = 1)
    (h : s.assemble points type d averaged basis = .ok values) :
    s.Files points type d averaged basis values := by
  obtain ⟨hcount, first, hchecked, rfl⟩ := assemble_ok h
  -- every entity has one table
  have hone : ∀ e < entities averaged type d, ∃ t,
      basis.get (s.key points averaged e) = [t] ∧
        (s.filed points type d averaged basis)[e]? = some [t] := by
    intro e he
    obtain ⟨t, ht⟩ := List.length_eq_one_iff.mp (hsingle e he)
    exact ⟨t, ht, ht ▸ getElem?_filed he⟩
  obtain ⟨t₀, -, ht₀⟩ := hone 0 hcount
  have hpermutations : (assembled (s.filed points type d averaged basis) first
      (entities averaged type d) (s.component.getD 0)).shape.permutations = 1 :=
    permutations_assembled ht₀
  refine ⟨hpermutations, fun e he => ?_⟩
  obtain ⟨t, ht, hfiled⟩ := hone e he
  refine ⟨t, ht, fun q hq dof hdof => ?_⟩
  have hmem : t ∈ (s.filed points type d averaged basis).flatten :=
    List.mem_flatten.mpr ⟨[t], List.mem_of_getElem? hfiled, List.mem_singleton.mpr rfl⟩
  obtain ⟨hpoints, hdofs, hcomponent⟩ := hchecked t hmem
  have hhas : (assembled (s.filed points type d averaged basis) first (entities averaged type d)
      (s.component.getD 0)).shape.Has 0 e q dof :=
    ⟨Nat.lt_of_lt_of_eq Nat.one_pos hpermutations.symm, he, Nat.lt_of_lt_of_eq hq hpoints,
      Nat.lt_of_lt_of_eq hdof hdofs⟩
  -- the position is within what is filed, so the default of the assembly is not taken
  obtain ⟨v, hv⟩ := BasisTable.get?_isSome hdof hcomponent hq
  refine ⟨hhas, ?_⟩
  rw [get_assembled hfiled hhas, hv]
  rfl

end TableSource

/-! ## Sources and their names -/

/-- The number of directions that derivatives are counted along. -/
def Frame.dim (frame : Frame) (d : Domain) : Nat :=
  match frame with
  | .reference => d.tdim
  | .physical => d.gdim

/-- Derivatives along directions of the frame are counted, with checks up to 255 and else modulo
256. The physical frame is that of a derivative. -/
structure Frame.Counts (frame : Frame) (d : Domain) (directions derivatives : List Nat)
    (overflow : Overflow) : Prop where
  within : ∀ k ∈ directions, k < frame.dim d
  inRange : overflow = .checked → ∀ k, directions.count k < 256
  derivatives : derivatives = (List.range (frame.dim d)).map fun k => directions.count k % 256
  physical : frame = .physical → directions ≠ []

/-- As many derivatives along every direction, as far as they are counted. -/
def Overflow.SameCounts (overflow : Overflow) (directions directions' : List Nat) : Prop :=
  match overflow with
  | .checked => ∀ k, directions.count k = directions'.count k
  | .wrapping => ∀ k, directions.count k % 256 = directions'.count k % 256

/-- The directions that a terminal's derivatives are counted along, in its frame. -/
def Descriptor.directions (m : Descriptor R) : List Nat :=
  if m.physical.isEmpty then m.reference else m.physical

section Counts

variable {overflow : Overflow} {directions directions' derivatives derivatives' : List Nat}
  {d : Domain} {frame frame' : Frame}

namespace Frame

/-- Counting the directions of a frame gives its counts. -/
theorem counts_of_ok (hsome : frame = .physical → directions ≠ [])
    (h : (derivativeCounts directions (frame.dim d) overflow : Checked R _) = .ok derivatives) :
    frame.Counts d directions derivatives overflow := by
  obtain ⟨hlt, hcount, heq⟩ := derivativeCounts_eq_ok.mp h
  exact ⟨hlt, hcount, heq, hsome⟩

namespace Counts

theorem length (h : frame.Counts d directions derivatives overflow) :
    derivatives.length = frame.dim d := by
  rw [h.derivatives, List.length_map, List.length_range]

/-- The counts tell those of all directions, also of the ones that the frame does not have. -/
theorem count_mod (h : frame.Counts d directions derivatives overflow) (k : Nat) :
    directions.count k % 256 = derivatives.getD k 0 := by
  rw [h.derivatives, List.getD_eq_getElem?_getD, List.getElem?_map]
  by_cases hk : k < frame.dim d
  · rw [List.getElem?_range hk]
    rfl
  · have hnone : directions.count k = 0 := List.count_eq_zero.mpr fun hmem => hk (h.within k hmem)
    rw [List.getElem?_eq_none (by simpa using hk), hnone]
    rfl

/-- **Equal counts are those of equally many derivatives**, as far as these are counted. -/
theorem sameCounts (h : frame.Counts d directions derivatives overflow)
    (h' : frame'.Counts d directions' derivatives overflow) :
    overflow.SameCounts directions directions' := by
  have hmod : ∀ k, directions.count k % 256 = directions'.count k % 256 := fun k =>
    (h.count_mod k).trans (h'.count_mod k).symm
  cases overflow with
  | wrapping => exact hmod
  | checked =>
    intro k
    have hk := hmod k
    rwa [Nat.mod_eq_of_lt (h.inRange rfl k), Nat.mod_eq_of_lt (h'.inRange rfl k)] at hk

/-- Where no derivative is counted, a build with checks has counted in the reference frame. -/
theorem eq_reference (h : frame.Counts d directions derivatives .checked)
    (hzero : ∀ n ∈ derivatives, n = 0) : frame = .reference := by
  cases frame with
  | reference => rfl
  | physical =>
    -- the direction of a derivative is counted, and its count is in range
    obtain ⟨k, hk⟩ := List.exists_mem_of_ne_nil directions (h.physical rfl)
    have hmem : directions.count k % 256 ∈ derivatives := by
      rw [h.derivatives]
      exact List.mem_map.mpr ⟨k, List.mem_range.mpr (h.within k hk), rfl⟩
    have hzero := hzero _ hmem
    rw [Nat.mod_eq_of_lt (h.inRange rfl k)] at hzero
    exact absurd hk (List.count_eq_zero.mp hzero)

/-- **What a name tells of derivatives** on one domain: their frame, if a derivative is counted or
the build checks for overflow, and their counts exactly where these have the same widths. -/
theorem tells (h : frame.Counts d directions derivatives overflow)
    (h' : frame'.Counts d directions' derivatives' overflow)
    (hsame : SameDigits frame derivatives frame' derivatives') :
    (overflow = .checked ∨ (∃ n ∈ derivatives ++ derivatives', n ≠ 0) → frame = frame') ∧
      (SameWidths derivatives derivatives' ↔ derivatives = derivatives') := by
  have hwidths : derivatives = derivatives' → SameWidths derivatives derivatives' :=
    fun heq => heq ▸ .refl _
  have hall {ns : List Nat} (hns : ns.all (· == 0)) : ∀ n ∈ ns, n = 0 := by simpa using hns
  rcases hsame with ⟨hzero, hzero'⟩ | ⟨hframe, hdigits⟩
  · -- neither name has counts
    have hzero := hall hzero
    have hzero' := hall hzero'
    refine ⟨?_, fun hw => ?_, hwidths⟩
    · rintro (rfl | ⟨n, hn, hne⟩)
      -- under overflow checks all counts zero mean no derivatives
      · rw [h.eq_reference hzero, h'.eq_reference hzero']
      · exact absurd ((List.mem_append.mp hn).elim (hzero n) (hzero' n)) hne
    · rw [List.eq_replicate_iff.mpr ⟨rfl, hzero⟩, List.eq_replicate_iff.mpr ⟨rfl, hzero'⟩,
        hw.length_eq]
  -- both names have counts
  · exact ⟨fun _ => hframe, fun hw => hw.eq_of_countDigits hdigits, hwidths⟩

end Counts

end Frame

/-- The frame of a descriptor counts its derivatives. -/
theorem Descriptor.derivativeFrame_counts {m : Descriptor R}
    (h : m.derivativeFrame d overflow = .ok (frame, derivatives)) :
    frame.Counts d m.directions derivatives overflow := by
  unfold Descriptor.derivativeFrame at h
  unfold Descriptor.directions
  -- reference derivatives, or none
  by_cases hphysical : m.physical.isEmpty
  · rw [if_pos hphysical] at h ⊢
    obtain ⟨counts, hcounts, h⟩ := bind_eq_ok.mp h
    cases h
    exact Frame.counts_of_ok nofun hcounts
  -- physical derivatives
  · rw [if_neg hphysical] at h ⊢
    obtain ⟨counts, hcounts, h⟩ := bind_eq_ok.mp h
    cases h
    exact Frame.counts_of_ok (fun _ hnil => hphysical (by rw [hnil]; rfl)) hcounts

end Counts

/-- An axis of a descriptor is read from its component. -/
theorem Descriptor.axis_eq_ok {m : Descriptor R} {k c : Nat} :
    (m.axis k : Checked R Nat) = .ok c ↔ m.component[k]? = some c := by
  unfold axis
  cases m.component[k]? <;> simp

namespace ModifiedTerminal

variable {m m' : ModifiedTerminal R} {d : Domain} {s : TableSource} {overflow : Overflow}

/-- The directions of all derivatives of the quantity that is read: those of the terminal, and for
a Jacobian the one that it is a derivative along. -/
def derivatives (m : ModifiedTerminal R) : List Nat :=
  match m.terminal with
  | .geometry g =>
    if g.kind = .jacobian then m.directions ++ m.component[1]?.toList else m.directions
  | _ => m.directions

/-- **The derivatives of a source** are counted in its frame. -/
theorem tableSource_counts (h : m.tableSource d overflow = .ok (some s)) :
    s.frame.Counts d m.derivatives s.derivatives overflow := by
  -- the source of an element counts the directions of the descriptor
  have helement : ∀ {e : Element} {s : TableSource}, m.elementSource d e overflow = .ok s →
      s.frame.Counts d m.directions s.derivatives overflow := by
    intro e s hs
    obtain ⟨⟨frame, derivatives⟩, hframe, hs⟩ := bind_eq_ok.mp hs
    cases hs
    exact m.derivativeFrame_counts hframe
  unfold derivatives
  unfold tableSource at h
  split at h
  -- an argument
  · next a ha =>
    obtain ⟨s', hs, h⟩ := bind_eq_ok.mp h
    cases h
    rw [ha]
    exact helement (lift_eq_ok.mp hs)
  -- a coefficient
  · next c hc =>
    obtain ⟨s', hs, h⟩ := bind_eq_ok.mp h
    cases h
    rw [hc]
    exact helement (lift_eq_ok.mp hs)
  -- a geometric quantity
  · next g hg =>
    rw [hg]
    dsimp only
    split at h
    · -- the coordinates of a point
      next hkind =>
      obtain ⟨⟨frame, derivatives⟩, hframe, h⟩ := bind_eq_ok.mp h
      obtain ⟨c, -, h⟩ := bind_eq_ok.mp h
      cases h
      rw [if_neg (by rw [hkind]; nofun)]
      exact m.derivativeFrame_counts (lift_eq_ok.mp hframe)
    · -- the Jacobian, whose directions are sorted before they are counted
      next hkind =>
      rw [if_pos hkind]
      by_cases hphysical : m.physical.isEmpty
      · rw [if_pos hphysical] at h
        obtain ⟨k, hk, h⟩ := bind_eq_ok.mp h
        obtain ⟨derivatives, hcounts, h⟩ := bind_eq_ok.mp h
        obtain ⟨c, -, h⟩ := bind_eq_ok.mp h
        cases h
        have haxis : m.component[1]? = some k := Descriptor.axis_eq_ok.mp (lift_eq_ok.mp hk)
        rw [Descriptor.directions, if_pos hphysical, haxis]
        have hsorted := (derivativeCounts_perm (List.mergeSort_perm _ _)).mp (lift_eq_ok.mp hcounts)
        exact Frame.counts_of_ok nofun hsorted
      · rw [if_neg hphysical] at h
        cases h
    -- other quantities have no source
    · cases h
  · cases h
  · cases h

/-- A source is that of the descriptor. -/
theorem tableSource_congr (hkey : m.toDescriptor = m'.toDescriptor)
    (h : m.tableSource d overflow = .ok (some s)) :
    m'.tableSource d overflow = .ok (some s) := by
  obtain ⟨key, e⟩ := m
  obtain ⟨key', e'⟩ := m'
  obtain rfl : key = key' := hkey
  unfold tableSource at h ⊢
  dsimp only at h ⊢
  split at h
  -- the source of a function reads the key alone
  · exact h
  · exact h
  · split at h
    · exact h
    · -- the expression itself is only read for an error
      by_cases hphysical : key.physical.isEmpty
      · rw [if_pos hphysical] at h ⊢
        exact h
      · rw [if_neg hphysical] at h
        cases h
    · cases h
  · cases h
  · cases h

end ModifiedTerminal

namespace OptimizedTables

/-- A name is written from the number of the element and the data of the source. -/
theorem sourceName_ok {elements : ElementNumbering} {type : IntegralType} {points : Nat}
    {s : TableSource} {averaged : Option Averaging} {name : String}
    (h : (sourceName s averaged elements type points : Result R String) = .ok name) :
    ∃ ordinal, elements.ordinal? s.element = some ordinal ∧ name =
      tableName ordinal s.component s.frame s.derivatives averaged type.entityType points := by
  unfold sourceName at h
  split at h
  · cases h
  · next ordinal hordinal =>
    cases h
    exact ⟨ordinal, hordinal, rfl⟩

section Names

variable {elements : ElementNumbering} {type : IntegralType} {points : Nat} {d : Domain}
  {s s' : TableSource} {averaged averaged' : Option Averaging} {name : String}
  {overflow : Overflow} {directions directions' : List Nat}

/-- **A name tells the source but for its counts**, of those of one domain. The frame is told if
a derivative is counted or the build checks for overflow, and the counts are told exactly where
they have the same widths. -/
theorem sourceName_tells (hcounts : s.frame.Counts d directions s.derivatives overflow)
    (hcounts' : s'.frame.Counts d directions' s'.derivatives overflow)
    (h : (sourceName s averaged elements type points : Result R String) = .ok name)
    (h' : (sourceName s' averaged' elements type points : Result R String) = .ok name) :
    s.element = s'.element ∧ s.component = s'.component ∧ averaged = averaged' ∧
      (overflow = .checked ∨ (∃ n ∈ s.derivatives ++ s'.derivatives, n ≠ 0) →
        s.frame = s'.frame) ∧
      (SameWidths s.derivatives s'.derivatives ↔ s.derivatives = s'.derivatives) := by
  obtain ⟨ordinal, hordinal, rfl⟩ := sourceName_ok h
  obtain ⟨ordinal', hordinal', hname⟩ := sourceName_ok h'
  obtain ⟨rfl, hcomponent, hderivatives, haveraged⟩ := tableName_tells hname
  -- The name holds the counts as digits only, hence the condition on their widths.
  exact ⟨elements.injective hordinal hordinal', hcomponent, haveraged,
    hcounts.tells hcounts' hderivatives⟩

/-- **A name tells the source**, of those of one domain with less than ten derivatives along
each direction, counted with checks. -/
theorem sourceName_injective (hcounts : s.frame.Counts d directions s.derivatives .checked)
    (hcounts' : s'.frame.Counts d directions' s'.derivatives .checked)
    (hs : ∀ n ∈ s.derivatives, n ≤ 9) (hs' : ∀ n ∈ s'.derivatives, n ≤ 9)
    (h : (sourceName s averaged elements type points : Result R String) = .ok name)
    (h' : (sourceName s' averaged' elements type points : Result R String) = .ok name) :
    s = s' ∧ averaged = averaged' := by
  obtain ⟨helement, hcomponent, haveraged, hframe, hcount⟩ := sourceName_tells hcounts hcounts' h h'
  -- frames agree, so there are counts for the same axes
  have hframe := hframe (.inl rfl)
  have hlength : s.derivatives.length = s'.derivatives.length := by
    rw [hcounts.length, hcounts'.length, hframe]
  -- counts of one digit each are told apart
  have hderivatives := hcount.mp (.of_le_nine hlength hs hs')
  refine ⟨?_, haveraged⟩
  obtain ⟨element, component, frame, derivatives⟩ := s
  obtain ⟨element', component', frame', derivatives'⟩ := s'
  obtain rfl : element = element' := helement
  obtain rfl : component = component' := hcomponent
  obtain rfl : frame = frame' := hframe
  obtain rfl : derivatives = derivatives' := hderivatives
  rfl

end Names

end OptimizedTables

end WeakForm
