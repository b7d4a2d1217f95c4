import VirtualPeople.Proofs.Update.InRange
import VirtualPeople.Proofs.Update.Masking

/-!
# A dense matrix by its columns

A dense matrix is the sparse matrix whose columns are its own, each with all the rows. As soon as
the number of probabilities is right, the one is built if and only if the other is, and what is
built corresponds (`MatrixSpec.build_columnwise`); both then update every event in the same way
(`Matrix.update_columnwise`).
-/

namespace VirtualPeople

namespace MatrixSpec

/-- A column with all the rows; its probabilities stand one row apart. -/
def sparseColumn (m : MatrixSpec) (j : Nat) : SparseColumnSpec where
  attributes := m.columns[j]?
  rows := m.rows
  probabilities :=
    (List.range m.rows.length).map fun r => m.probabilities.getD (r * m.columns.length + j) 0

/-- The sparse matrix of the columns. -/
def columnwise (m : MatrixSpec) : SparseMatrixSpec where
  columns := (List.range m.columns.length).map m.sparseColumn
  seed := m.seed
  passThrough := m.passThrough
  mask := m.mask

end MatrixSpec

/-- The sparse matrix that has all the rows in every column. -/
def Matrix.columnwise (m : Matrix) : SparseMatrix where
  matcher := m.matcher
  distributions := m.distributions
  seed := m.seed
  rows := List.replicate m.distributions.length m.rows
  passThrough := m.passThrough

theorem Matrix.columnwise_eq {m : Matrix} {n : Nat} (h : m.distributions.length = n) :
    m.columnwise =
      ⟨m.matcher, m.distributions, m.seed, List.replicate n m.rows, m.passThrough⟩ := by
  rw [← h]
  rfl

/-- A dense matrix updates events as the sparse matrix with all the rows in every column does. -/
theorem Matrix.update_columnwise (m : Matrix) (e : Event) :
    m.columnwise.update e = m.update e := by
  refine ColumnMatcher.mergeRow_congr fun c r hselect => ?_
  obtain ⟨-, d, -, hd, -⟩ := ColumnMatcher.select_eq_some hselect
  obtain ⟨hlt, -⟩ := List.getElem?_eq_some_iff.1 hd
  have hrows : m.columnwise.rows[c]? = some m.rows := List.getElem?_replicate_of_lt hlt
  rw [hrows, Option.bind_some]

namespace MatrixSpec

variable {m : MatrixSpec}

theorem attributes_columnwise :
    m.columnwise.columns.map (·.attributes) = m.columns.map some := by
  refine List.ext_getElem? fun j => ?_
  by_cases hj : j < m.columns.length
  · simp [columnwise, sparseColumn, hj]
  · simp [columnwise, hj]

theorem rows_columnwise :
    m.columnwise.columns.map (·.rows) = List.replicate m.columns.length m.rows := by
  simp [columnwise, Function.comp_def, sparseColumn]

theorem columns_columnwise_ne_nil : m.columnwise.columns ≠ [] ↔ m.columns ≠ [] := by
  simp [columnwise]

theorem distributions_columnwise :
    m.columnwise.columns.mapM (fun c => Distribution.ofWeights (c.probabilities.map widen)) =
      (List.range m.columns.length).mapM fun c => Distribution.ofWeights (m.column c) := by
  rw [columnwise, List.mapM_map]
  refine congrArg (List.mapM · _) (funext fun j => ?_)
  show Distribution.ofWeights (List.map widen (List.map _ _)) = _
  rw [List.map_map]
  rfl

theorem length_distributions {distributions : List Distribution}
    (h : (List.range m.columns.length).mapM (fun c => Distribution.ofWeights (m.column c)) =
      .ok distributions) : distributions.length = m.columns.length := by
  rw [← (forall₂_of_mapM h).length_eq, List.length_range]

/-- With rows, the columns pass the check, and their attributes are the dense columns. -/
theorem checkAll_columnwise {attributes : List Event} (hcolumns : m.columns ≠ []) :
    SparseColumnSpec.checkAll 0 m.columnwise.columns = .ok attributes ↔
      m.rows ≠ [] ∧ m.columns = attributes := by
  have hsizes : (∀ c ∈ m.columnwise.columns,
      c.rows ≠ [] ∧ c.rows.length = c.probabilities.length) ↔ m.rows ≠ [] := by
    have hpos : 0 < m.columns.length := List.length_pos_iff.2 hcolumns
    simp only [columnwise, List.forall_mem_map, List.mem_range, sparseColumn, List.length_map,
      List.length_range, and_true]
    exact ⟨fun h => h 0 hpos, fun h _ _ => h⟩
  rw [SparseColumnSpec.checkAll_eq_ok, attributes_columnwise, hsizes, and_comm,
    List.map_inj_right fun _ _ => Option.some.inj]

/-- The sizes being right, what the columns build is the columnwise form of what the dense matrix
builds, and the one is refused where the other is. -/
theorem build_columnwise (hsize : m.probabilities.length = m.rows.length * m.columns.length)
    {built : SparseMatrix} :
    m.columnwise.build = .ok built ↔ ∃ dense, m.build = .ok dense ∧ dense.columnwise = built := by
  rw [SparseMatrixSpec.build_eq_ok, distributions_columnwise, rows_columnwise,
    columns_columnwise_ne_nil]
  simp only [build_eq_ok, hsize, true_and]
  constructor
  · rintro ⟨hcolumns, attributes, hattributes, matcher, hmatcher, distributions, hd, rfl⟩
    obtain ⟨hrows, rfl⟩ := (checkAll_columnwise hcolumns).1 hattributes
    exact ⟨_, ⟨hrows, hcolumns, matcher, hmatcher, distributions, hd, rfl⟩,
      Matrix.columnwise_eq (length_distributions hd)⟩
  · rintro ⟨dense, ⟨hrows, hcolumns, matcher, hmatcher, distributions, hd, rfl⟩, rfl⟩
    rw [Matrix.columnwise_eq (length_distributions hd)]
    exact ⟨hcolumns, m.columns, (checkAll_columnwise hcolumns).2 ⟨hrows, rfl⟩, matcher, hmatcher,
      distributions, hd, rfl⟩

/-- A dense matrix that is built is built from its columns too, and updates every event in the same
way; and the sizes being right, columns that are built make a dense matrix. -/
theorem columnwise_refines (m : MatrixSpec) :
    (∀ dense, m.build = .ok dense → ∃ sparse, m.columnwise.build = .ok sparse ∧
      ∀ e, sparse.update e = dense.update e) ∧
    (m.probabilities.length = m.rows.length * m.columns.length →
      (∃ sparse, m.columnwise.build = .ok sparse) → ∃ dense, m.build = .ok dense) := by
  constructor
  · intro dense hdense
    obtain ⟨-, -, hsize, -⟩ := build_eq_ok.1 hdense
    exact ⟨dense.columnwise, (build_columnwise hsize).2 ⟨dense, hdense, rfl⟩,
      dense.update_columnwise⟩
  · rintro hsize ⟨sparse, hsparse⟩
    obtain ⟨dense, hdense, -⟩ := (build_columnwise hsize).1 hsparse
    exact ⟨dense, hdense⟩

/-- Two countries with a row for each. -/
def byCountry : MatrixSpec where
  columns := MaskTable.countries
  rows := [MaskTable.fromCountry "AT", MaskTable.fromCountry "BE"]
  probabilities := [0.75, 0.5, 0.25, 0.5]
  seed := some "seed"
  passThrough := none
  mask := none

theorem columnwise_refines_byCountry :
    (∃ dense sparse, byCountry.build = .ok dense ∧ byCountry.columnwise.build = .ok sparse ∧
      ∀ e, sparse.update e = dense.update e) ∧
    byCountry.probabilities.length = byCountry.rows.length * byCountry.columns.length ∧
      ∃ dense, byCountry.build = .ok dense := by
  obtain ⟨dense, hdense⟩ : ∃ dense, byCountry.build = .ok dense := by
    rcases hbuild : byCountry.build with err | dense
    · have hok : byCountry.build.isOk := by decide +kernel
      rw [hbuild] at hok
      cases hok
    · exact ⟨dense, rfl⟩
  obtain ⟨sparse, hsparse, hupdate⟩ := (columnwise_refines byCountry).1 dense hdense
  exact ⟨⟨dense, sparse, hdense, hsparse, hupdate⟩, rfl,
    (columnwise_refines byCountry).2 rfl ⟨sparse, hsparse⟩⟩

end MatrixSpec

end VirtualPeople
