set_option autoImplicit false

/-!
# Vocabulary: the tables of operators and targets

Every operator of the filter language, and every target together with the kinds
of filter that may use it.
-/

namespace StreamFilter.Vocabulary

/-- The operators of the filter language. -/
def operators : List String :=
  ["contains", "cs contains", "substr", "cs substr", "contains_any", "cs contains_any",
    "any", "cs any", "wildcard", "cs wildcard", "wild", "cs wild", "contains_all",
    "cs contains_all", "all", "cs all", "contains_near", "cs contains_near", "exists",
    "in", "url_in", "==", "!=", "cs ==", "cs !=", ">", ">=", "<", "<=", "regex_partial",
    "regex_exact", "geo_box", "geo_radius", "geo_polygon"]

/-- A target and the kinds of filter that may use it. -/
structure Target where
  name : String
  interaction : Bool
  analysis : Bool
  query : Bool
  deriving DecidableEq, Repr, Inhabited

/-- The known targets. -/
def targets : List Target :=
  [⟨"fb.author.age", true, true, true⟩,
    ⟨"fb.author.country", true, true, true⟩,
    ⟨"fb.author.country_code", true, true, true⟩,
    ⟨"fb.author.gender", true, true, true⟩,
    ⟨"fb.author.region", true, true, true⟩,
    ⟨"fb.author.type", true, true, true⟩,
    ⟨"fb.content", true, false, true⟩,
    ⟨"fb.hashtags", true, true, true⟩,
    ⟨"fb.language", true, true, true⟩,
    ⟨"fb.link", true, true, true⟩,
    ⟨"fb.media_type", true, true, true⟩,
    ⟨"fb.parent.author.age", true, true, true⟩,
    ⟨"fb.parent.author.country", true, true, true⟩,
    ⟨"fb.parent.author.country_code", true, true, true⟩,
    ⟨"fb.parent.author.gender", true, true, true⟩,
    ⟨"fb.parent.author.type", true, true, true⟩,
    ⟨"fb.parent.content", true, false, true⟩,
    ⟨"fb.parent.hashtags", true, true, true⟩,
    ⟨"fb.parent.interface", true, true, true⟩,
    ⟨"fb.parent.language", true, true, true⟩,
    ⟨"fb.parent.link", true, true, true⟩,
    ⟨"fb.parent.media_type", true, true, true⟩,
    ⟨"fb.parent.sentiment", true, true, true⟩,
    ⟨"fb.parent.topics.about", true, false, false⟩,
    ⟨"fb.parent.topics.category", true, true, true⟩,
    ⟨"fb.parent.topics.company_overview", true, false, false⟩,
    ⟨"fb.parent.topics.location_city", true, false, false⟩,
    ⟨"fb.parent.topics.location_street", true, false, false⟩,
    ⟨"fb.parent.topics.mission", true, false, false⟩,
    ⟨"fb.parent.topics.name", true, true, true⟩,
    ⟨"fb.parent.topics.products", true, false, false⟩,
    ⟨"fb.parent.topics.release_date", true, false, false⟩,
    ⟨"fb.parent.topics.username", true, false, false⟩,
    ⟨"fb.parent.topics.website", true, false, false⟩,
    ⟨"fb.parent.topic_ids", true, true, true⟩,
    ⟨"fb.sentiment", true, true, true⟩,
    ⟨"fb.topics.about", true, false, false⟩,
    ⟨"fb.topics.category", true, true, true⟩,
    ⟨"fb.topics.company_overview", true, false, false⟩,
    ⟨"fb.topics.location_city", true, false, false⟩,
    ⟨"fb.topics.location_street", true, false, false⟩,
    ⟨"fb.topics.mission", true, false, false⟩,
    ⟨"fb.topics.name", true, true, true⟩,
    ⟨"fb.topics.products", true, false, false⟩,
    ⟨"fb.topics.release_date", true, false, false⟩,
    ⟨"fb.topics.username", true, false, false⟩,
    ⟨"fb.topics.website", true, false, false⟩,
    ⟨"fb.topic_ids", true, true, true⟩,
    ⟨"fb.type", true, true, true⟩,
    ⟨"interaction.content", true, false, true⟩,
    ⟨"interaction.hashtags", true, true, true⟩,
    ⟨"interaction.media_type", true, true, true⟩,
    ⟨"interaction.ml.categories", false, true, true⟩,
    ⟨"interaction.raw_content", true, false, true⟩,
    ⟨"interaction.subtype", true, true, true⟩,
    ⟨"interaction.tags", false, true, false⟩,
    ⟨"interaction.tag_tree", false, true, true⟩,
    ⟨"links.code", true, true, true⟩,
    ⟨"links.domain", true, true, true⟩,
    ⟨"links.normalized_url", true, true, true⟩,
    ⟨"links.url", true, true, true⟩]

/-- The table row of a target. -/
def lookup? (name : String) : Option Target := targets.find? (·.name == name)

end StreamFilter.Vocabulary
