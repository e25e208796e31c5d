import GraphQL.Schema.Catalog

/-!
# Sites of directives

Directives are used on types and on the schema declaration, on fields and their arguments, on symbols of enums, on input
fields and on the arguments of directives. `Schema.sites` lists all of these places, each with the uses there.
-/

namespace GraphQL

/-- No two arguments of the use have the same name. -/
def DirectiveUse.Distinct (use : DirectiveUse) : Prop := (Entries.keys use.args).Nodup

/-- A place with the directives that are used there. -/
structure Site where
  location : DirectiveLocation
  uses : List DirectiveUse

/-- The arguments of every use at the site have names of their own. -/
def Site.Distinct (site : Site) : Prop := ∀ use ∈ site.uses, use.Distinct

/-- An argument or input field at the given location. -/
def InputValue.site (location : DirectiveLocation) (value : InputValue) : Site := ⟨location, value.directives⟩

/-- A field and its arguments. -/
def FieldDef.sites (field : FieldDef) : List Site :=
  ⟨.fieldDefinition, field.directives⟩ :: field.args.map (InputValue.site .argumentDefinition)

/-- A symbol of an enum. -/
def EnumValue.site (value : EnumValue) : Site := ⟨.enumValue, value.directives⟩

/-- The sites in the body of a declaration. -/
def TypeBody.sites : TypeBody → List Site
  | .object body | .interface body => body.fields.flatMap FieldDef.sites
  | .enum values => values.map EnumValue.site
  | .input fields => fields.map (InputValue.site .inputFieldDefinition)
  | .scalar _ | .union _ | .schema _ => []

/-- A type, or the schema declaration, and what is in it. -/
def TypeDecl.sites (type : TypeDecl) : List Site := ⟨type.body.location, type.directives⟩ :: type.body.sites

/-- The arguments of a directive. -/
def DirectiveDecl.sites (decl : DirectiveDecl) : List Site := decl.args.map (InputValue.site .argumentDefinition)

/-- The sites of a declaration at the top of a schema text. -/
def Declaration.sites : Declaration → List Site
  | .type decl | .extension decl => decl.sites
  | .directive decl => decl.sites

/-- All sites of a schema. -/
def Schema.sites (schema : Schema) : List Site :=
  (schema.types ++ schema.declaration.toList).flatMap TypeDecl.sites ++ schema.directives.flatMap DirectiveDecl.sites

theorem Schema.mem_sites_iff {schema : Schema} {site : Site} :
    site ∈ schema.sites ↔
      (∃ type ∈ schema.types ++ schema.declaration.toList, site ∈ type.sites) ∨
        ∃ decl ∈ schema.directives, site ∈ decl.sites := by
  simp only [sites, List.mem_append, List.mem_flatMap]

theorem FieldDef.forall_sites_iff {field : FieldDef} {P : Site → Prop} :
    (∀ site ∈ field.sites, P site) ↔
      P ⟨.fieldDefinition, field.directives⟩ ∧ ∀ arg ∈ field.args, P (arg.site .argumentDefinition) := by
  simp [sites]

end GraphQL
