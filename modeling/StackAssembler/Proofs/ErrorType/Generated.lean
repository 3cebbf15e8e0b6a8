import StackAssembler.ErrorType.Expansion
import StackAssembler.Proofs.Failure

set_option autoImplicit false
set_option relaxedAutoImplicit false

namespace StackAssembler.ErrorType

/-- What is shown by a message of its own: a variant or a structure. -/
structure Shown where
  subject : Subject
  attributes : List Attribute
  fields : Fields
  deriving DecidableEq

def Shown.message (shown : Shown) : Except Fault String :=
  messageOf shown.subject shown.attributes

def Variant.shown (variant : Variant) : Shown :=
  ⟨.variant variant.name, variant.attributes, variant.fields⟩

def Description.shown (description : Description) : List Shown :=
  match description.shape with
  | .enum variants => variants.map Variant.shown
  | .struct attributes fields => [⟨.type description.name, attributes, fields⟩]
  | .union => []

/-- Where a write stands: in an arm of a match, or alone in the method. -/
inductive Site
  | arm (arm : Arm)
  | method (write : Write)
  deriving DecidableEq

def Site.write : Site → Write
  | .arm generated => generated.write
  | .method write => write

def Body.sites : Body → List Site
  | .arms all => all.map .arm
  | .write single => [.method single]

namespace Impl

def sites : Impl → List Site
  | .display body => body.sites
  | .error _ | .convert _ => []

def sources : Impl → List String
  | .error variants => variants.getD []
  | .display _ | .convert _ => []

def conversion? : Impl → Option Conversion
  | .convert conversion => some conversion
  | .display _ | .error _ => none

end Impl

def Shown.site (shown : Shown) (message : String) : Site :=
  match shown.subject with
  | .variant name => .arm (displayArm name message shown.fields)
  | .type _ => .method (displayStruct message shown.fields)

theorem expandVariant_eq_ok {variant : Variant} {arm : Arm} {conversion : Option Conversion} :
    expandVariant variant = .ok (arm, conversion) ↔
      ∃ message inner, variant.shown.message = .ok message ∧ wrapped variant.fields = .ok inner ∧
        arm = displayArm variant.name message variant.fields ∧
        conversion = inner.map fun type => ⟨variant.name, type⟩ := by
  simp only [expandVariant, bind_eq_ok]
  constructor
  · intro expanded
    obtain ⟨message, found, inner, wraps, same⟩ := expanded
    cases same
    exact ⟨message, inner, found, wraps, rfl, rfl⟩
  · intro expanded
    obtain ⟨message, inner, found, wraps, rfl, rfl⟩ := expanded
    exact ⟨message, found, inner, wraps, rfl⟩

theorem expandEnum_eq_ok {variants : List Variant} {impls : List Impl} :
    expandEnum variants = .ok impls ↔
      ∃ parts : List (Arm × Option Conversion),
        List.Forall₂ (fun variant part => expandVariant variant = .ok part) variants parts ∧
          impls = .display (.arms (parts.map (·.1))) ::
            .error (sources? (parts.filterMap (·.2))) ::
              (parts.filterMap (·.2)).map .convert := by
  simp only [expandEnum, bind_eq_ok, mapM_eq_ok]
  constructor
  · intro expanded
    obtain ⟨parts, each, same⟩ := expanded
    cases same
    exact ⟨parts, each, rfl⟩
  · intro expanded
    obtain ⟨parts, each, rfl⟩ := expanded
    exact ⟨parts, each, rfl⟩

theorem getD_sources? (conversions : List Conversion) :
    (sources? conversions).getD [] = conversions.map (·.variant) := by
  cases conversions <;> rfl

theorem expandStruct_eq_ok {name : String} {attributes : List Attribute} {fields : Fields}
    {impls : List Impl} :
    expandStruct name attributes fields = .ok impls ↔
      ∃ message, messageOf (.type name) attributes = .ok message ∧
        impls = [.display (.write (displayStruct message fields)), .error none] := by
  simp only [expandStruct, bind_eq_ok]
  constructor
  · intro expanded
    obtain ⟨message, found, same⟩ := expanded
    cases same
    exact ⟨message, found, rfl⟩
  · intro expanded
    obtain ⟨message, found, rfl⟩ := expanded
    exact ⟨message, found, rfl⟩

private theorem sites_convert (all : List Conversion) :
    (all.map Impl.convert).flatMap Impl.sites = [] := by
  induction all with
  | nil => rfl
  | cons _ _ ih => exact ih

theorem sites_of_expand {description : Description} {impls : List Impl}
    (expanded : expand description = .ok impls) :
    List.Forall₂ (fun shown site => ∃ message, shown.message = .ok message ∧
      site = shown.site message) description.shown (impls.flatMap Impl.sites) := by
  unfold expand at expanded
  unfold Description.shown
  cases shape : description.shape with
  | enum variants =>
      rw [shape] at expanded
      obtain ⟨parts, each, rfl⟩ := expandEnum_eq_ok.mp expanded
      have arms (written : List Arm) (variants : Option (List String)) (all : List Conversion) :
          (.display (.arms written) :: .error variants :: all.map Impl.convert).flatMap Impl.sites =
            written.map Site.arm := by
        rw [List.flatMap_cons, List.flatMap_cons, sites_convert]
        exact List.append_nil _
      rw [arms, List.forall₂_map_left_iff, List.forall₂_map_right_iff, List.forall₂_map_right_iff]
      refine each.imp fun variant part made => ?_
      obtain ⟨message, inner, found, _, arm, _⟩ := expandVariant_eq_ok.mp made
      exact ⟨message, found, congrArg Site.arm arm⟩
  | struct attributes fields =>
      rw [shape] at expanded
      obtain ⟨message, found, rfl⟩ := expandStruct_eq_ok.mp expanded
      exact .cons ⟨message, found, rfl⟩ .nil
  | union =>
      rw [shape] at expanded
      cases expanded

theorem forall₂_sites_iff {description : Description} {impls : List Impl}
    {property : Shown → Site → Prop} {condition : Shown → Prop}
    (expanded : expand description = .ok impls)
    (each : ∀ shown ∈ description.shown, ∀ message, shown.message = .ok message →
      (property shown (shown.site message) ↔ condition shown)) :
    List.Forall₂ property description.shown (impls.flatMap Impl.sites) ↔
      ∀ shown ∈ description.shown, condition shown := by
  have paired := sites_of_expand expanded
  generalize description.shown = all at paired each ⊢
  generalize impls.flatMap Impl.sites = writes at paired ⊢
  induction paired with
  | nil => simp
  | cons made _ ih =>
      obtain ⟨message, found, rfl⟩ := made
      rw [List.forall₂_cons, List.forall_mem_cons]
      rw [List.forall_mem_cons] at each
      exact and_congr (each.1 message found) (ih each.2)

end StackAssembler.ErrorType
